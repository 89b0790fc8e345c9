import JavaOutline.Proofs.Completing
import JavaOutline.Proofs.Lexical.Closed
import JavaOutline.Proofs.Onward

/-!
# JavaOutline.Proofs.Placement

Statements in other places.  A statement that its own text ends is found again
wherever the text stands: whatever comes before and behind it, the tokens and
the ending are the same, and all positions are moved by the length of what
comes before (`statementAt_placed_iff`).

Whether its own text ends a statement is said by the text: there is nothing to
say of a `;`, a `}` or a label, and the brace of a block is closed where the
text inside closes its own braces and a closing brace follows
(`Ending.ClosedIn`, `isComplete_iff_closedIn`).
-/

namespace JavaOutline

open Text

/-! ## Endings in their own text -/

/-- Whether an ending is in a text as a whole: a block is if the text inside
closes its own braces and is followed by a closing brace. -/
def Ending.ClosedIn (text : List Char) : Ending Nat → Prop
  | .block body after =>
    ∃ inner, Closed [('\x7b', '\x7d')] inner ∧ text.drop body = inner ++ '\x7d' :: text.drop after
  | .endOfText => False
  | .semicolon => True
  | .closeBrace => True
  | .label => True

/-- The brace of a block is closed in a text if something remains behind it of
a blank that is added. -/
theorem closed_iff_afterBracket_append_blank {body : List Char} :
    afterBracket '\x7b' '\x7d' 0 (body ++ [' ']) ≠ [] ↔
      ∃ inner, Closed [('\x7b', '\x7d')] inner ∧
        body = inner ++ '\x7d' :: afterBracket '\x7b' '\x7d' 0 body := by
  constructor
  · intro hne
    obtain ⟨inner, tail, hinner, heq, hafter⟩ :=
      exists_closed_of_afterBracket (k := ('\x7b', '\x7d')) (by decide) 0 _ hne
    rw [afterBracket_zero_closing (k := ('\x7b', '\x7d')) (by decide)] at hafter
    rw [hafter] at hne
    obtain ⟨rest, last, rfl⟩ := (List.eq_nil_or_concat tail).resolve_left hne
    have hbody : body ++ [' '] = (inner ++ '\x7d' :: rest) ++ [last] := by simpa using heq
    obtain ⟨rfl, -⟩ := List.append_inj' hbody rfl
    exact ⟨inner, hinner, by rw [hinner.afterBracket_matching (by decide)]⟩
  · rintro ⟨inner, hinner, heq⟩
    rw [heq, List.append_assoc, List.cons_append, hinner.afterBracket_matching (by decide)]
    simp

section

variable {text rest : List Char} {statement : Statement (List Char)}

/-- A statement is complete if its ending is in the text as a whole. -/
theorem isComplete_iff_closedIn (h : scan text = some (statement, rest)) :
    statement.isComplete = true ↔ (statement.ending.map (positionOf text)).ClosedIn text := by
  obtain ⟨tokens, ending⟩ := statement
  cases ending with
  | semicolon => simp [Statement.isComplete, Ending.map, Ending.ClosedIn]
  | closeBrace => simp [Statement.isComplete, Ending.map, Ending.ClosedIn]
  | label => simp [Statement.isComplete, Ending.map, Ending.ClosedIn]
  | endOfText => simp [Statement.isComplete, Ending.map, Ending.ClosedIn]
  | block body after =>
      have hbody : body <:+ text := (List.suffix_cons _ _).trans (block_suffix_of_scan h rfl)
      have hafter : after = afterBracket '\x7b' '\x7d' 0 body :=
        (after_eq_of_scan h rfl).trans (rest_eq_of_scan h rfl)
      have hrest : after <:+ text := after_eq_of_scan h rfl ▸ scan_suffix h
      simp only [Statement.isComplete, Ending.map, Ending.ClosedIn, bne_iff_ne,
        drop_positionOf hbody, drop_positionOf hrest, closed_iff_afterBracket_append_blank]
      rw [← hafter]

/-! ## Positions in a longer text -/

theorem positionOf_between (before behind : List Char) (h : rest.length ≤ text.length) :
    positionOf (before ++ text ++ behind) (rest ++ behind) =
      before.length + positionOf text rest := by
  simp only [positionOf, List.length_append]
  omega

/-- A statement with all that it says of places is moved by what stands in
front. -/
theorem withPositions_between (before behind : List Char) (hrest : rest.length ≤ text.length)
    (hblock : ∀ body after, statement.ending = .block body after →
      body.length ≤ text.length ∧ after.length ≤ text.length) :
    withPositions (before ++ text ++ behind) (statement.append behind, rest ++ behind) =
      ((withPositions text (statement, rest)).1.map (before.length + ·),
        before.length + (withPositions text (statement, rest)).2) := by
  obtain ⟨tokens, ending⟩ := statement
  have hending : (ending.map (· ++ behind)).map (positionOf (before ++ text ++ behind)) =
      (ending.map (positionOf text)).map (before.length + ·) := by
    cases ending with
    | block body after =>
        obtain ⟨hbody, hafter⟩ := hblock body after rfl
        simp only [Ending.map, positionOf_between before behind hbody,
          positionOf_between before behind hafter]
    | semicolon => rfl
    | closeBrace => rfl
    | label => rfl
    | endOfText => rfl
  simp only [withPositions, Statement.append, Statement.map, hending,
    positionOf_between before behind hrest]

/-- **A statement depends on its own text.**  The first statement of a text is
found wherever the text stands, with the same tokens and ending and all
positions moved by what stands before the text, if and only if its ending is
in the text as a whole: it is a `;`, a `}`, a label, or a block whose closing
brace is in the text. -/
theorem statementAt_placed_iff {s : List Char} {statement : Statement Nat} {next : Nat}
    (h : statementAt s 0 = some (statement, next)) :
    statement.ending.ClosedIn s ↔
      ∀ p t : List Char, statementAt (p ++ s ++ t) p.length =
        some (statement.map (p.length + ·), p.length + next) := by
  rw [statementAt, List.drop_zero] at h
  obtain ⟨⟨own, rest⟩, hscan, heq⟩ := Option.map_eq_some_iff.1 h
  cases heq
  have hrest := (scan_suffix hscan).length_le
  refine (isComplete_iff_closedIn hscan).symm.trans ⟨?_, ?_⟩
  · intro hcomplete p t
    have hown : scan (s ++ []) = some (own, rest) := by rw [List.append_nil, hscan]
    obtain ⟨own', rest', hscan', happend⟩ := scan_append hown hcomplete (Nat.zero_le _)
    rw [hscan] at hscan'
    cases hscan'
    have hblock : ∀ body after, own.ending = .block body after →
        body.length ≤ s.length ∧ after.length ≤ s.length := fun body after hblock =>
      ⟨Nat.le_of_lt (length_body_lt_of_scan hscan hblock), after_eq_of_scan hscan hblock ▸ hrest⟩
    rw [statementAt, List.append_assoc, List.drop_left, happend, Option.map_some,
      ← List.append_assoc, withPositions_between p t hrest hblock]
    rfl
  · intro hplaced
    cases hcomplete : own.isComplete with
    | true => rfl
    | false =>
        -- Behind a blank the statement would end behind the blank.
        obtain ⟨later, hlater⟩ := scan_append_blank hscan hcomplete
        have hnext := hplaced [] [' ']
        rw [statementAt, List.nil_append, List.length_nil, List.drop_zero, hlater] at hnext
        have hposition := congrArg (Option.map Prod.snd) hnext
        simp [withPositions, positionOf] at hposition
        omega

end

/-- A method between other text, with a comment in its body that holds a brace. -/
theorem statementAt_placed_method :
    let s := "void f() \x7b /* \x7d */ \x7d".toList
    statementAt s 0 = some (⟨["void", "f", "(", ")"], .block 10 20⟩, 20) ∧
      (Ending.block 10 20).ClosedIn s ∧
      statementAt ("int x;".toList ++ s ++ "\x7d".toList) 6 =
        some (⟨["void", "f", "(", ")"], .block 16 26⟩, 26) := by
  intro s
  have hstatement : statementAt s 0 = some (⟨["void", "f", "(", ")"], .block 10 20⟩, 20) := by
    decide +kernel
  have hclosed : (Ending.block 10 20).ClosedIn s := by
    have hcomment : Closed [('\x7b', '\x7d')] " /* \x7d */ ".toList :=
      .code (by decide) (by decide) (by decide)
        (@Closed.blockComment _ [' ', '\x7d', ' '] _ (by decide)
          (.code (by decide) (by decide) (by decide) .nil))
    exact ⟨_, hcomment, by decide +kernel⟩
  exact ⟨hstatement, hclosed, (statementAt_placed_iff hstatement).1 hclosed _ _⟩

end JavaOutline
