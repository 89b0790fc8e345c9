import JavaOutline.Proofs.Lexical.Parts
import JavaOutline.Statement.Scan

/-!
# JavaOutline.Proofs.Lexical.Steps

Single steps of an open statement, character by character.  Reading a text
is a step at its first character (`read_cons`); what the step does depends
on whether the character is a quote (`step_quote`), follows blanks
(`read_blanks_append`), interrupts a name (`read_interrupting`), or stands
between tokens.
-/

namespace JavaOutline

open Text

namespace OpenStatement

/-! ## Ending a token -/

theorem endToken_of_current_eq_empty {s : OpenStatement} (h : s.current = "") :
    s.endToken = s := by
  rw [endToken, if_pos h]

theorem endToken_of_current_ne_empty {s : OpenStatement} (h : s.current ≠ "")
    (hat : s.atAnnotation = false) :
    s.endToken = { s with tokens := s.tokens ++ [s.current], current := "" } := by
  rw [endToken, if_neg h, if_neg (by simp [hat])]

@[simp] theorem endToken_endToken (s : OpenStatement) : s.endToken.endToken = s.endToken :=
  endToken_of_current_eq_empty (current_endToken s)

@[simp] theorem finish_endToken (s : OpenStatement) (ending : Ending (List Char)) :
    s.endToken.finish ending = s.finish ending := by
  rw [finish, finish, endToken_endToken]

@[simp] theorem parentheses_endToken (s : OpenStatement) :
    s.endToken.parentheses = s.parentheses := by
  rw [endToken]
  split
  · rfl
  · split <;> rfl

@[simp] theorem angles_endToken (s : OpenStatement) : s.endToken.angles = s.angles := by
  rw [endToken]
  split
  · rfl
  · split <;> rfl

@[simp] theorem atAnnotation_endToken (s : OpenStatement) : s.endToken.atAnnotation = false := by
  simp [ atAnnotation]

/-! ## Angle brackets -/

@[simp] theorem tokens_countAngle (s : OpenStatement) (c : Char) :
    (s.countAngle c).tokens = s.tokens := by
  rw [countAngle]
  split
  · rfl
  · split <;> rfl

@[simp] theorem current_countAngle (s : OpenStatement) (c : Char) :
    (s.countAngle c).current = s.current := by
  rw [countAngle]
  split
  · rfl
  · split <;> rfl

@[simp] theorem parentheses_countAngle (s : OpenStatement) (c : Char) :
    (s.countAngle c).parentheses = s.parentheses := by
  rw [countAngle]
  split
  · rfl
  · split <;> rfl

/-! ## One character -/

/-- Reading a nonempty text is a step, and reading on where it leads. -/
theorem read_cons (s : OpenStatement) (c : Char) (rest : List Char) :
    s.read (c :: rest) =
      match s.step c rest with
      | .more t text => t.read text
      | .complete statement text => some (statement, text)
      | .cutOff => none := by
  rw [read]
  split <;> simp_all

/-- The step of a statement at a literal passes over the literal. -/
theorem step_quote {quote : Char} (hquote : isQuote quote = true) (s : OpenStatement)
    (rest : List Char) : s.step quote rest = .more s (afterQuote quote rest) := by
  have hgap : ¬ (isBlank quote = true ∨ quote = '/') := by
    rintro (hb | rfl)
    · rw [isBlank_eq_false_of_isQuote hquote] at hb; cases hb
    · exact absurd hquote (by decide)
  have hinterrupts : interruptsName quote = false := by
    rcases isQuote_iff.1 hquote with rfl | rfl <;> decide
  rw [step, if_neg hgap, if_neg (by simp [hinterrupts]), if_pos hquote]

/-- After blanks the statement is at a boundary. -/
theorem read_blanks_append (s : OpenStatement) {run : List Char} (hrun : AllBlank run)
    (hne : run ≠ []) {d : Char} (hblank : isBlank d = false) (hslash : d ≠ '/') (tail : List Char) :
    s.read (run ++ d :: tail) = (s.boundary d tail).1.read (s.boundary d tail).2 := by
  obtain ⟨c, run, rfl⟩ := List.exists_cons_of_ne_nil hne
  have hc := hrun c List.mem_cons_self
  have hgaps : skipGaps (c :: (run ++ d :: tail)) = d :: tail := by
    rw [← List.cons_append, skipGaps_blanks_append hrun, skipGaps_cons_of_code hblank hslash]
  rw [List.cons_append, read_cons, step, if_pos (.inl hc), hgaps]

/-- A slash that opens no comment is read like a blank. -/
theorem read_slash (s : OpenStatement) {text : List Char} (hline : text.head? ≠ some '/')
    (hblock : text.head? ≠ some '*') : s.read ('/' :: text) = s.read (' ' :: text) := by
  have hblank : isBlank ' ' = true := by decide
  have hgaps : skipGaps ('/' :: text) = skipGaps (' ' :: text) := by
    rw [skipGaps_slash, afterSlash_eq_self hline hblock, skipGaps_cons_of_isBlank hblank]
  rw [read_cons, read_cons, step, step, if_pos (.inr rfl), if_pos (.inl hblank), hgaps]

/-- A character that cannot be in a name is a boundary after a token. -/
theorem read_interrupting {s : OpenStatement} (hcurrent : s.current ≠ "") {c : Char}
    (hinterrupts : interruptsName c = true) (rest : List Char) :
    s.read (c :: rest) = (s.boundary c rest).1.read (s.boundary c rest).2 := by
  have hgap : ¬ (isBlank c = true ∨ c = '/') := by
    rw [interruptsName, List.contains_iff_mem] at hinterrupts
    revert c
    decide
  rw [read_cons, step, if_neg hgap, if_pos ⟨hcurrent, hinterrupts⟩]

/-! ## Characters between tokens -/

theorem read_openParenthesis {s : OpenStatement} (hcurrent : s.current = "") (rest : List Char) :
    s.read ('(' :: rest) = s.openParenthesis.read rest := by
  rw [read_cons, step, if_neg (by decide), if_neg (by simp [hcurrent]), if_neg (by decide),
    if_pos rfl]

theorem read_closeParenthesis {s : OpenStatement} (hcurrent : s.current = "") (rest : List Char) :
    s.read (')' :: rest) = (s.closeParenthesis (skipBlanks rest)).read (skipBlanks rest) := by
  rw [read_cons, step, if_neg (by decide), if_neg (by simp [hcurrent]), if_neg (by decide),
    if_neg (by decide), if_pos rfl]

/-- What may end a statement is looked at as such, unless it interrupts a
name. -/
theorem step_mayEnd {s : OpenStatement} {c : Char} (hends : mayEnd c = true)
    (hcurrent : s.current = "" ∨ interruptsName c = false) (rest : List Char) :
    s.step c rest = s.readEnding c rest := by
  have hgap : ¬ (isBlank c = true ∨ c = '/') ∧ ¬ isQuote c = true ∧ c ≠ '(' ∧ c ≠ ')' := by
    rw [mayEnd, List.contains_iff_mem] at hends
    clear hcurrent
    revert c
    decide
  obtain ⟨hgap, hquote, hopen, hclose⟩ := hgap
  have hname : ¬ (s.current ≠ "" ∧ interruptsName c = true) := by
    rintro ⟨hne, hinterrupts⟩
    rcases hcurrent with hempty | hnot
    · exact hne hempty
    · rw [hnot] at hinterrupts; cases hinterrupts
  rw [step, if_neg hgap, if_neg hname, if_neg hquote, if_neg hopen, if_neg hclose, if_pos hends]

end OpenStatement

end JavaOutline
