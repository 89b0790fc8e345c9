import JavaOutline.Proofs.Layout.Tokens
import JavaOutline.Proofs.Lexical.Local
import Mathlib.Data.List.TakeWhile

/-!
# JavaOutline.Proofs.Completed

A statement that is complete depends on its own text only.

A statement is complete if it did not run into the end of the text
(`Statement.isComplete`).  If it ends in front of a text `x`, then it would end
there in front of every other text: each step goes on as before
(`OpenStatement.step_append`), so does reading (`OpenStatement.read_append`),
and so the whole statement is found again (`scan_append`).
-/

namespace JavaOutline

open Text

/-! ## Statements that another text follows -/

/-- Whether a statement ended before the text did.  The brace of a block is
closed in the text if something remains when a blank is added. -/
def Statement.isComplete (s : Statement (List Char)) : Bool :=
  match s.ending with
  | .block body _ => afterBracket '\x7b' '\x7d' 0 (body ++ [' ']) != []
  | .endOfText => false
  | _ => true

/-- The statement in a text that another one follows. -/
def Statement.append (s : Statement (List Char)) (y : List Char) : Statement (List Char) :=
  s.map (· ++ y)

/-- What reading on brings in a text that another one follows. -/
def Advance.append (y : List Char) : Advance → Advance
  | .more s rest => .more s (rest ++ y)
  | .complete statement rest => .complete (statement.append y) (rest ++ y)
  | .cutOff => .cutOff

/-- Whether the statement ends in front of the text `x` at the end. -/
def OpenStatement.EndsBefore (x : List Char) (s : OpenStatement) (text : List Char) : Prop :=
  ∃ statement rest, s.read text = some (statement, rest) ∧ x.length ≤ rest.length

/-- Whether reading on ends in front of the text `x` at the end; a statement
that ends at once has to be complete. -/
def Advance.EndsBefore (x : List Char) : Advance → Prop
  | .more s rest => s.EndsBefore x rest
  | .complete statement rest => statement.isComplete = true ∧ x.length ≤ rest.length
  | .cutOff => False

namespace OpenStatement

variable {s : OpenStatement} {c : Char} {t x rest : List Char}

theorem endsBefore_step {statement : Statement (List Char)} {text : List Char}
    (h : s.read (c :: text) = some (statement, rest)) (hcomplete : statement.isComplete = true)
    (hle : x.length ≤ rest.length) : (s.step c text).EndsBefore x := by
  rw [read_cons] at h
  cases hstep : s.step c text with
  | more u next =>
      rw [hstep] at h
      exact ⟨statement, rest, h, hle⟩
  | complete own next =>
      rw [hstep] at h
      cases h
      exact ⟨hcomplete, hle⟩
  | cutOff =>
      rw [hstep] at h
      cases h

theorem EndsBefore.length_lt {text : List Char} (h : s.EndsBefore x text) :
    x.length < text.length := by
  obtain ⟨statement, rest, hread, hle⟩ := h
  exact Nat.lt_of_le_of_lt hle (within_of_read hread).1

/-! ## What stands in front -/

/-- A statement does not end in blanks. -/
theorem EndsBefore.skipBlanks_ne_nil (h : s.EndsBefore x (t ++ x)) : skipBlanks t ≠ [] := by
  intro hall
  cases t with
  | nil => exact Nat.lt_irrefl _ h.length_lt
  | cons c t =>
      have hblank : AllBlank (c :: t) := List.dropWhile_eq_nil_iff.1 hall
      obtain ⟨statement, rest, hread, hle⟩ := h
      rw [List.cons_append, read_cons, step, if_pos (.inl (hblank c List.mem_cons_self)),
        ← List.cons_append, skipGaps_blanks_append hblank] at hread
      cases hgaps : skipGaps x with
      | nil =>
          rw [hgaps] at hread
          cases hread
      | cons d tail =>
          rw [hgaps] at hread
          have hlt := (within_of_read hread).1
          have hboundary := length_boundary_le s d tail
          have hx := length_skipGaps_le x
          rw [hgaps] at hx
          omega

/-- A statement does not end in the characters of a word. -/
theorem EndsBefore.exists_not_isPlain (h : s.EndsBefore x (t ++ x)) : ∃ c ∈ t, isPlain c = false := by
  by_cases hplain : ∀ c ∈ t, isPlain c = true
  · obtain ⟨statement, rest, hread, hle⟩ := h
    rw [read_plain_append hplain] at hread
    exact absurd hle (Nat.not_le.2 (within_of_read hread).1)
  · simpa using hplain

/-- What joins a token is known if a character follows that is not blank. -/
theorem joint_append_of_ne_nil (hne : skipBlanks t ≠ []) (y : List Char) :
    s.joint c (t ++ y) = ((s.joint c t).1, (s.joint c t).2 ++ y) := by
  have hskip := local_skipBlanks.append_of_ne_nil hne y
  have hhead : (skipBlanks t ++ y).head? = (skipBlanks t).head? := by
    obtain ⟨d, tail, hd⟩ := List.exists_cons_of_ne_nil hne
    rw [hd]
    rfl
  dsimp only [joint]
  rw [hskip, hhead]
  split
  · rfl
  split
  · rfl
  split <;> rfl

theorem joint_append
    (h : (s.joint c (t ++ x)).1.EndsBefore x (s.joint c (t ++ x)).2) (y : List Char) :
    s.joint c (t ++ y) = ((s.joint c t).1, (s.joint c t).2 ++ y) := by
  refine joint_append_of_ne_nil (fun hall => ?_) y
  have hblank : AllBlank t := List.dropWhile_eq_nil_iff.1 hall
  dsimp only [joint] at h
  rw [skipBlanks_blanks_append hblank] at h
  have hx := length_skipBlanks_le x
  split at h
  · exact absurd h.length_lt (Nat.not_lt.2 hx)
  split at h
  · exact absurd h.length_lt (Nat.not_lt.2 hx)
  split at h
  · exact h.skipBlanks_ne_nil hall
  · exact h.skipBlanks_ne_nil hall

theorem boundary_append
    (h : (s.boundary c (t ++ x)).1.EndsBefore x (s.boundary c (t ++ x)).2) (y : List Char) :
    s.boundary c (t ++ y) = ((s.boundary c t).1, (s.boundary c t).2 ++ y) := by
  unfold boundary at h ⊢
  split
  · next hjoin =>
      rw [if_pos hjoin] at h
      exact joint_append h y
  · next hjoin =>
      rw [if_neg hjoin] at h
      split
      · next hannotation =>
          rw [if_pos hannotation] at h
          rw [local_afterBracket _ _ _ _ _ h.length_lt]
      · rfl

/-! ## Parentheses and ends -/

/-- A text that is not part of a word is not completed to one. -/
theorem isPrefixOf_append {word t : List Char} (hword : ∀ c ∈ word, isPlain c = true)
    (ht : ∃ c ∈ t, isPlain c = false) (y : List Char) :
    word.isPrefixOf (t ++ y) = word.isPrefixOf t := by
  rw [Bool.eq_iff_iff, List.isPrefixOf_iff_prefix, List.isPrefixOf_iff_prefix]
  refine ⟨fun h => ?_, fun h => h.trans (List.prefix_append t y)⟩
  rcases List.prefix_or_prefix_of_prefix h (List.prefix_append t y) with hle | hle
  · exact hle
  · obtain ⟨c, hc, hnot⟩ := ht
    rw [hword c (hle.subset hc)] at hnot
    cases hnot

/-- Whether a body follows is known from a text that is not part of a word. -/
theorem closeParenthesis_append_of_not_isPlain (hplain : ∃ c ∈ t, isPlain c = false)
    (s : OpenStatement) (y : List Char) : s.closeParenthesis (t ++ y) = s.closeParenthesis t := by
  have hword : ∀ c ∈ "throws".toList, isPlain c = true := by decide
  have hopens : opensBody (t ++ y) = opensBody t := by
    have ⟨c, hc, _⟩ := hplain
    obtain ⟨d, tail, hd⟩ := List.exists_cons_of_ne_nil (List.ne_nil_of_mem hc)
    rw [opensBody, opensBody, isPrefixOf_append hword hplain, hd]
    rfl
  rw [closeParenthesis, closeParenthesis, hopens]

theorem closeParenthesis_append
    (h : (s.closeParenthesis (skipBlanks (t ++ x))).EndsBefore x (skipBlanks (t ++ x)))
    (y : List Char) : skipBlanks (t ++ y) = skipBlanks t ++ y ∧
      s.closeParenthesis (skipBlanks t ++ y) = s.closeParenthesis (skipBlanks t) := by
  have hskip := local_skipBlanks t x h.length_lt
  rw [hskip] at h
  exact ⟨hskip y, closeParenthesis_append_of_not_isPlain h.exists_not_isPlain s y⟩

/-- A block that is completed in front of a text is closed there. -/
theorem afterBracket_append_of_isComplete
    (h : afterBracket '\x7b' '\x7d' 0 (t ++ x ++ [' ']) ≠ [])
    (hle : x.length ≤ (afterBracket '\x7b' '\x7d' 0 (t ++ x)).length) (y : List Char) :
    afterBracket '\x7b' '\x7d' 0 (t ++ y) = afterBracket '\x7b' '\x7d' 0 t ++ y := by
  have hlength : [' '].length ≤ (afterBracket '\x7b' '\x7d' 0 (t ++ x ++ [' '])).length :=
    List.length_pos_iff.2 h
  have hblank := afterBracket_append hlength h [' ']
  rw [List.append_assoc] at h hblank
  refine afterBracket_append (x := x ++ [' ']) ?_ h y
  rw [hblank, List.length_append, List.length_append]
  exact Nat.add_le_add_right hle 1

theorem readEnding_append (h : (s.readEnding c (t ++ x)).EndsBefore x) (y : List Char) :
    s.readEnding c (t ++ y) = (s.readEnding c t).append y := by
  cases s.readEnding_cases c with
  | constantBody _ heq =>
      rw [heq] at h
      rw [heq, heq, local_afterBracket _ _ _ _ _ h.length_lt]
      rfl
  | block _ heq =>
      rw [heq] at h
      obtain ⟨hcomplete, hle⟩ := h
      simp only [Statement.isComplete, finish, bne_iff_ne] at hcomplete
      rw [heq, heq, afterBracket_append_of_isComplete hcomplete hle]
      rfl
  | initializer _ heq =>
      rw [heq] at h
      have hbefore : (initializerEnd .none (t ++ x)).Before x := by
        cases hend : initializerEnd .none (t ++ x) <;> rw [hend] at h
        · exact h.length_lt
        · exact h.2
        · cases h.1
      have happend := initializerEnd_append hbefore
      rw [heq, heq, happend]
      cases hend : initializerEnd .none t with
      | comma | semicolon => rfl
      | endOfText =>
          rw [happend, hend] at hbefore
          cases hbefore
  | colon _ heq | enclosed heq | closeBrace _ heq | label _ heq | semicolon heq =>
      rw [heq, heq]
      rfl

/-- What gaps lead to is the same, whatever follows. -/
theorem afterGaps_append (h : (s.afterGaps (skipGaps (c :: (t ++ x)))).EndsBefore x)
    (y : List Char) : s.afterGaps (skipGaps (c :: (t ++ y))) =
      (s.afterGaps (skipGaps (c :: t))).append y := by
  -- What the gaps are followed by stands in front of `x`, as the statement ends there.
  have hlength : x.length < (skipGaps (c :: t ++ x)).length := by
    rw [List.cons_append]
    cases hgaps : skipGaps (c :: (t ++ x)) with
    | nil =>
        rw [hgaps] at h
        cases h
    | cons d tail =>
        rw [hgaps] at h
        exact Nat.lt_of_lt_of_le h.length_lt (length_boundary_le s d tail)
  have hgaps := local_skipGaps (c :: t) x hlength
  simp only [List.cons_append] at hgaps
  rw [hgaps] at h ⊢
  cases hown : skipGaps (c :: t) with
  | nil =>
      rw [List.cons_append, hgaps, hown] at hlength
      exact absurd hlength (Nat.lt_irrefl _)
  | cons d tail =>
      rw [hown] at h
      have hboundary := boundary_append (c := d) (t := tail) h y
      simp only [List.cons_append, afterGaps, hboundary]
      rfl

/-- A step goes on as before, whatever follows. -/
theorem step_append (h : (s.step c (t ++ x)).EndsBefore x) (y : List Char) :
    s.step c (t ++ y) = (s.step c t).append y := by
  cases s.step_cases c with
  | gap _ heq =>
      rw [heq] at h
      rw [heq, heq]
      exact afterGaps_append h y
  | boundary _ heq =>
      rw [heq] at h
      rw [heq, heq, boundary_append h y]
      rfl
  | quote _ heq =>
      rw [heq] at h
      rw [heq, heq, local_afterQuote _ _ _ h.length_lt]
      rfl
  | closeParenthesis _ _ heq =>
      rw [heq] at h
      obtain ⟨hskip, hclosed⟩ := closeParenthesis_append h y
      rw [heq, heq, hskip, hclosed]
      rfl
  | ending _ _ heq =>
      rw [heq] at h
      rw [heq, heq]
      exact readEnding_append h y
  | openParenthesis _ _ heq | angle _ heq | character _ _ _ heq =>
      rw [heq, heq]
      rfl

/-- A statement that is completed is completed whatever follows. -/
theorem read_append {statement : Statement (List Char)}
    (h : s.read (t ++ x) = some (statement, rest)) (hcomplete : statement.isComplete = true)
    (hle : x.length ≤ rest.length) : ∃ own after, s.read t = some (own, after) ∧
      ∀ y, s.read (t ++ y) = some (own.append y, after ++ y) := by
  fun_induction read s t with
  | case1 s => exact absurd hle (Nat.not_le.2 (within_of_read h).1)
  | case2 s c tail u next hstep ih =>
      have happend := step_append (endsBefore_step h hcomplete hle)
      rw [hstep] at happend
      rw [List.cons_append, read_cons, happend] at h
      obtain ⟨own, after, hread, hall⟩ := ih h
      refine ⟨own, after, hread, fun y => ?_⟩
      rw [List.cons_append, read_cons, happend]
      exact hall y
  | case3 s c tail own next hstep =>
      have happend := step_append (endsBefore_step h hcomplete hle)
      rw [hstep] at happend
      refine ⟨own, next, rfl, fun y => ?_⟩
      rw [List.cons_append, read_cons, happend]
      rfl
  | case4 s c tail hstep =>
      have happend := step_append (endsBefore_step h hcomplete hle)
      rw [hstep] at happend
      rw [List.cons_append, read_cons, happend] at h
      cases h

end OpenStatement

/-- **A completed statement depends on its own text only.**  If it ends in
front of a text `x`, then in front of every other text the same tokens are
found with the same ending. -/
theorem scan_append {t x rest : List Char} {statement : Statement (List Char)}
    (h : scan (t ++ x) = some (statement, rest)) (hcomplete : statement.isComplete = true)
    (hle : x.length ≤ rest.length) : ∃ own after, scan t = some (own, after) ∧
      ∀ y, scan (t ++ y) = some (own.append y, after ++ y) := by
  have hlength : x.length < (skipGaps (t ++ x)).length :=
    Nat.lt_of_le_of_lt hle (OpenStatement.within_of_read h).1
  have hgaps := local_skipGaps t x hlength
  rw [scan, hgaps] at h
  obtain ⟨own, after, hread, hall⟩ := OpenStatement.read_append h hcomplete hle
  refine ⟨own, after, hread, fun y => ?_⟩
  rw [scan, hgaps]
  exact hall y

end JavaOutline
