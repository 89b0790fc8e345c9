import JavaOutline.Proofs.Lexical.Closed
import JavaOutline.Statement.Position

/-!
# JavaOutline.Proofs.Lexical.Matching

The bracket that closes another one, by position.  The part that is passed over
from a bracket on ends right behind the next closing bracket if and only if the
text between the two closes its own brackets, whatever stands before and behind
them; without the closing bracket it reaches to the end of the text
(`closed_iff_bracketEnd`).
-/

namespace JavaOutline

open Text

/-- The position behind the bracketed part whose opening bracket is at a
position. -/
def bracketEnd (k : Char × Char) (text : List Char) (position : Nat) : Nat :=
  positionOf text (afterBracket k.1 k.2 0 (text.drop (position + 1)))

/-- What stands before the bracket only moves the end of its part. -/
theorem bracketEnd_append (k : Char × Char) (before text : List Char) :
    bracketEnd k (before ++ k.1 :: text) before.length =
      before.length + 1 + positionOf text (afterBracket k.1 k.2 0 text) := by
  have hdrop : (before ++ k.1 :: text).drop (before.length + 1) = text :=
    List.drop_length_add_append 1
  have hle := length_afterBracket_le k.1 k.2 0 text
  simp only [bracketEnd, hdrop, positionOf, List.length_append, List.length_cons]
  omega

variable {k : Char × Char} {inner : List Char}

/-- A text that is left by the next closing bracket, and not earlier, closes its
own brackets. -/
theorem closed_of_length_afterBracket (hk : k ∈ bracketKinds) (behind : List Char)
    (hne : behind ≠ [])
    (h : (afterBracket k.1 k.2 0 (inner ++ k.2 :: behind)).length = behind.length) :
    Closed [k] inner := by
  have hrest : afterBracket k.1 k.2 0 (inner ++ k.2 :: behind) ≠ [] := by
    intro hnil
    rw [hnil, List.length_nil, eq_comm, List.length_eq_zero_iff] at h
    exact hne h
  obtain ⟨own, tail, hown, heq, hafter⟩ := exists_closed_of_afterBracket hk 0 _ hrest
  rw [hafter, afterBracket_zero_closing hk] at h
  obtain ⟨rfl, -⟩ := List.append_inj' heq (by simp [h])
  exact hown

/-- **The next closing bracket is found.**  A text closes its own brackets of a
kind if and only if, between an opening and a closing bracket of the kind, the
part that the first one opens ends behind the second one, whatever comes before
and behind them.  Without the closing bracket the part then reaches to the end
of the text. -/
theorem closed_iff_bracketEnd (hk : k ∈ bracketKinds) :
    Closed [k] inner ↔
      (∀ before behind : List Char,
        bracketEnd k (before ++ k.1 :: (inner ++ k.2 :: behind)) before.length =
          (before ++ k.1 :: (inner ++ [k.2])).length) ∧
      ∀ before : List Char,
        bracketEnd k (before ++ k.1 :: inner) before.length = (before ++ k.1 :: inner).length := by
  constructor
  · intro h
    refine ⟨fun before behind => ?_, fun before => ?_⟩
    · rw [bracketEnd_append, h.afterBracket_matching hk, positionOf]
      simp only [List.length_append, List.length_cons, List.length_nil]
      omega
    · rw [bracketEnd_append, h.afterBracket_eq_nil List.mem_cons_self (by simpa using hk),
        positionOf]
      simp only [List.length_append, List.length_cons, List.length_nil]
      omega
  · rintro ⟨hmatching, -⟩
    have hend := hmatching [] [' ']
    have hle := length_afterBracket_le k.1 k.2 0 (inner ++ [k.2, ' '])
    rw [bracketEnd_append, positionOf] at hend
    refine closed_of_length_afterBracket hk [' '] (by simp) ?_
    simp only [List.length_append, List.length_cons, List.length_nil] at hend hle ⊢
    omega

/-- A body that holds braces in a comment, behind an escaped quote and in a block
of its own, and ends in a slash. -/
theorem bracketEnd_body :
    let inner := "/* \x7d */ '\\'\x7d' \x7b \x7d /".toList
    let before := "void f() ".toList
    Closed [('\x7b', '\x7d')] inner ∧
      bracketEnd ('\x7b', '\x7d') (before ++ '\x7b' :: (inner ++ '\x7d' :: " \x7d".toList)) 9 = 30 ∧
      bracketEnd ('\x7b', '\x7d') (before ++ '\x7b' :: inner) 9 = 29 := by
  intro inner before
  have hblock : Closed [('\x7b', '\x7d')] "\x7b \x7d /".toList :=
    @Closed.block _ ('\x7b', '\x7d') [' '] _ (by decide)
      (.code (by decide) (by decide) (by decide) .nil)
      (.code (by decide) (by decide) (by decide) (.slash (by decide) (by decide) .nil))
  have hliteral : Closed [('\x7b', '\x7d')] "'\\'\x7d' \x7b \x7d /".toList :=
    @Closed.literal _ '\'' ['\\', '\'', '\x7d'] _ (by decide)
      (.escape (.plain (by decide) (by decide) .nil))
      (.code (by decide) (by decide) (by decide) hblock)
  have hinner : Closed [('\x7b', '\x7d')] inner :=
    @Closed.blockComment _ [' ', '\x7d', ' '] _ (by decide)
      (.code (by decide) (by decide) (by decide) hliteral)
  obtain ⟨hmatching, hunclosed⟩ := (closed_iff_bracketEnd (by decide)).1 hinner
  exact ⟨hinner, hmatching before " \x7d".toList, hunclosed before⟩

end JavaOutline
