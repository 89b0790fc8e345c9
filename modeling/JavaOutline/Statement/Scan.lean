import JavaOutline.Statement.Open

/-!
# JavaOutline.Statement.Scan

Reading the first statement of a text.  `scan` returns it with the text
that follows, or nothing if no statement ends before the text does.
Nothing fails: what is not closed reaches to the end of the text.

What a step can be is said once (`step_cases`, `readEnding_cases`); whatever
holds of every step is proved from its cases.

The text that follows is shorter (`length_lt_of_scan`), and so is the text
inside a block (`length_body_lt_of_scan`).
-/

namespace JavaOutline

open Text

/-- What reading on brings. -/
inductive Advance where
  /-- The statement goes on. -/
  | more (s : OpenStatement) (rest : List Char)
  /-- The statement has ended. -/
  | complete (s : Statement (List Char)) (rest : List Char)
  /-- Nothing but blanks and comments is left. -/
  | cutOff

namespace OpenStatement

/-! ## One step -/

/-- Read on at one of `:`, `;`, `{`, `}` and `=`.  Inside parentheses
they mean nothing. -/
def readEnding (s : OpenStatement) (c : Char) (rest : List Char) : Advance :=
  if c = ':' ∧ s.endsInLabel = false then .more (s.push c) rest
  else if 0 < s.parentheses then .more s rest
  else if c = '{' then
    let after := afterBracket '{' '}' 0 rest
    if s.isLoneName then .more s.reopen after
    else .complete (s.finish (.block rest after)) after
  else if c = '=' then
    match initializerEnd .none rest with
    | .comma text => .more s.reopen text
    | .semicolon text => .complete (s.finish .semicolon) text
    | .endOfText => .complete (s.finish .endOfText) []
  else if c = '}' then .complete (s.finish .closeBrace) rest
  else if c = ':' then .complete (s.finish .label) rest
  else .complete (s.finish .semicolon) rest

/-- Whether a character may end a statement. -/
def mayEnd (c : Char) : Bool := [':', ';', '{', '}', '='].contains c

/-- Read on at the first character of a text. -/
def step (s : OpenStatement) (c : Char) (rest : List Char) : Advance :=
  if isBlank c ∨ c = '/' then
    match skipGaps (c :: rest) with
    | [] => .cutOff
    | d :: tail =>
      let next := s.boundary d tail
      .more next.1 next.2
  else if s.current ≠ "" ∧ interruptsName c then
    let next := s.boundary c rest
    .more next.1 next.2
  else if isQuote c then .more s (afterQuote c rest)
  else if c = '(' then .more s.openParenthesis rest
  else if c = ')' then .more (s.closeParenthesis (skipBlanks rest)) (skipBlanks rest)
  else if mayEnd c then s.readEnding c rest
  else if c = '<' then .more ((s.countAngle c).push c) rest
  else .more (s.push c) rest

/-! ## What a step can be -/

/-- Read on where gaps lead to. -/
def afterGaps (s : OpenStatement) : List Char → Advance
  | [] => .cutOff
  | d :: tail => .more (s.boundary d tail).1 (s.boundary d tail).2

/-- Read on after an initial value. -/
def afterInitializer (s : OpenStatement) : InitializerEnd → Advance
  | .comma text => .more s.reopen text
  | .semicolon text => .complete (s.finish .semicolon) text
  | .endOfText => .complete (s.finish .endOfText) []

/-- What reading on at one of `:`, `;`, `{`, `}` and `=` can be.  Which case it
is does not depend on the text that follows. -/
inductive EndingCase (s : OpenStatement) (c : Char) : Prop
  | colon (hc : c = ':') (heq : ∀ rest, s.readEnding c rest = .more (s.push c) rest)
  | enclosed (heq : ∀ rest, s.readEnding c rest = .more s rest)
  | constantBody (hc : c = '{')
      (heq : ∀ rest, s.readEnding c rest = .more s.reopen (afterBracket '{' '}' 0 rest))
  | block (hc : c = '{') (heq : ∀ rest, s.readEnding c rest = .complete
      (s.finish (.block rest (afterBracket '{' '}' 0 rest))) (afterBracket '{' '}' 0 rest))
  | initializer (hc : c = '=')
      (heq : ∀ rest, s.readEnding c rest = s.afterInitializer (initializerEnd .none rest))
  | closeBrace (hc : c = '}')
      (heq : ∀ rest, s.readEnding c rest = .complete (s.finish .closeBrace) rest)
  | label (hc : c = ':') (heq : ∀ rest, s.readEnding c rest = .complete (s.finish .label) rest)
  | semicolon (heq : ∀ rest, s.readEnding c rest = .complete (s.finish .semicolon) rest)

theorem readEnding_cases (s : OpenStatement) (c : Char) : s.EndingCase c := by
  by_cases hlabel : c = ':' ∧ s.endsInLabel = false
  · exact .colon hlabel.1 fun rest => by rw [readEnding, if_pos hlabel]
  by_cases hopen : 0 < s.parentheses
  · exact .enclosed fun rest => by rw [readEnding, if_neg hlabel, if_pos hopen]
  by_cases hbrace : c = '{'
  · by_cases hlone : s.isLoneName = true
    · exact .constantBody hbrace fun rest => by
        rw [readEnding, if_neg hlabel, if_neg hopen, if_pos hbrace, if_pos hlone]
    · exact .block hbrace fun rest => by
        rw [readEnding, if_neg hlabel, if_neg hopen, if_pos hbrace, if_neg hlone]
  by_cases hequals : c = '='
  · exact .initializer hequals fun rest => by
      rw [readEnding, if_neg hlabel, if_neg hopen, if_neg hbrace, if_pos hequals]
      cases initializerEnd .none rest <;> rfl
  by_cases hclose : c = '}'
  · exact .closeBrace hclose fun rest => by
      rw [readEnding, if_neg hlabel, if_neg hopen, if_neg hbrace, if_neg hequals, if_pos hclose]
  by_cases hcolon : c = ':'
  · exact .label hcolon fun rest => by
      rw [readEnding, if_neg hlabel, if_neg hopen, if_neg hbrace, if_neg hequals, if_neg hclose,
        if_pos hcolon]
  · exact .semicolon fun rest => by
      rw [readEnding, if_neg hlabel, if_neg hopen, if_neg hbrace, if_neg hequals, if_neg hclose,
        if_neg hcolon]

/-- What a step can be.  Which case it is does not depend on the text that
follows. -/
inductive StepCase (s : OpenStatement) (c : Char) : Prop
  | gap (hgap : isBlank c = true ∨ c = '/')
      (heq : ∀ rest, s.step c rest = s.afterGaps (skipGaps (c :: rest)))
  | boundary (hcurrent : s.current ≠ "")
      (heq : ∀ rest, s.step c rest = .more (s.boundary c rest).1 (s.boundary c rest).2)
  | quote (hquote : isQuote c = true) (heq : ∀ rest, s.step c rest = .more s (afterQuote c rest))
  | openParenthesis (hc : c = '(') (hcurrent : s.current = "")
      (heq : ∀ rest, s.step c rest = .more s.openParenthesis rest)
  | closeParenthesis (hc : c = ')') (hcurrent : s.current = "") (heq : ∀ rest,
      s.step c rest = .more (s.closeParenthesis (skipBlanks rest)) (skipBlanks rest))
  | ending (hends : mayEnd c = true) (hbetween : s.current = "" ∨ interruptsName c = false)
      (heq : ∀ rest, s.step c rest = s.readEnding c rest)
  | angle (hc : c = '<') (heq : ∀ rest, s.step c rest = .more ((s.countAngle c).push c) rest)
  | character (hblank : isBlank c = false) (hquote : isQuote c = false)
      (hnot : c ∉ ['/', '(', ')', ':', ';', '{', '}', '='])
      (heq : ∀ rest, s.step c rest = .more (s.push c) rest)

theorem step_of_gap {s : OpenStatement} {c : Char} (hgap : isBlank c = true ∨ c = '/')
    (rest : List Char) : s.step c rest = s.afterGaps (skipGaps (c :: rest)) := by
  rw [step, if_pos hgap]
  cases skipGaps (c :: rest) <;> rfl

theorem step_cases (s : OpenStatement) (c : Char) : s.StepCase c := by
  by_cases hgap : isBlank c = true ∨ c = '/'
  · exact .gap hgap (step_of_gap hgap)
  by_cases hname : s.current ≠ "" ∧ interruptsName c
  · exact .boundary hname.1 fun rest => by rw [step, if_neg hgap, if_pos hname]
  have hbetween : s.current = "" ∨ interruptsName c = false := by
    rw [Decidable.not_and_iff_not_or_not, Decidable.not_not, Bool.not_eq_true] at hname
    exact hname
  have hempty : interruptsName c = true → s.current = "" := fun hinterrupts =>
    hbetween.resolve_right (by simp [hinterrupts])
  by_cases hquote : isQuote c = true
  · exact .quote hquote fun rest => by rw [step, if_neg hgap, if_neg hname, if_pos hquote]
  by_cases hopen : c = '('
  · exact .openParenthesis hopen (hempty (hopen ▸ by decide)) fun rest => by
      rw [step, if_neg hgap, if_neg hname, if_neg hquote, if_pos hopen]
  by_cases hclose : c = ')'
  · exact .closeParenthesis hclose (hempty (hclose ▸ by decide)) fun rest => by
      rw [step, if_neg hgap, if_neg hname, if_neg hquote, if_neg hopen, if_pos hclose]
  by_cases hends : mayEnd c = true
  · exact .ending hends hbetween fun rest => by
      rw [step, if_neg hgap, if_neg hname, if_neg hquote, if_neg hopen, if_neg hclose, if_pos hends]
  by_cases hangle : c = '<'
  · exact .angle hangle fun rest => by
      rw [step, if_neg hgap, if_neg hname, if_neg hquote, if_neg hopen, if_neg hclose,
        if_neg hends, if_pos hangle]
  have hcode := not_or.1 hgap
  have hnot : c ∉ ['/', '(', ')', ':', ';', '{', '}', '='] := by
    simp only [mayEnd, List.contains_iff_mem, List.mem_cons, not_or] at hends ⊢
    exact ⟨hcode.2, hopen, hclose, hends⟩
  exact .character (Bool.eq_false_iff.2 hcode.1) (Bool.eq_false_iff.2 hquote) hnot fun rest => by
    rw [step, if_neg hgap, if_neg hname, if_neg hquote, if_neg hopen, if_neg hclose, if_neg hends,
      if_neg hangle]

/-! ## Every step gets nearer to the end -/

/-- The characters to read, counted twice, and the token to end. -/
def weight (s : OpenStatement) (text : List Char) : Nat :=
  2 * text.length + if s.current = "" then 0 else 1

theorem weight_lt_of_length_lt {s t : OpenStatement} {text rest : List Char}
    (h : rest.length < text.length) : t.weight rest < s.weight text := by
  simp only [weight]
  split <;> split <;> omega

@[simp] theorem current_endToken (s : OpenStatement) : s.endToken.current = "" := by
  rw [endToken]
  split
  · assumption
  · split <;> rfl

/-- A joining character is passed over. -/
theorem length_joint_le (s : OpenStatement) (c : Char) (rest : List Char) :
    (s.joint c rest).2.length ≤ rest.length := by
  have hblanks := length_skipBlanks_le rest
  dsimp only [joint]
  split
  · exact hblanks
  split
  · exact hblanks
  split
  all_goals exact Nat.le_refl _

/-- A boundary leaves no more text than it found. -/
theorem length_boundary_le (s : OpenStatement) (c : Char) (rest : List Char) :
    (s.boundary c rest).2.length ≤ (c :: rest).length := by
  rw [boundary]
  split
  · exact Nat.le_succ_of_le (length_joint_le ..)
  split
  · exact Nat.le_succ_of_le (length_afterBracket_le ..)
  · exact Nat.le_refl _

/-- A boundary after a token ends the token or passes over a character. -/
theorem weight_boundary_lt {s : OpenStatement} (h : s.current ≠ "") (c : Char)
    (rest : List Char) :
    (s.boundary c rest).1.weight (s.boundary c rest).2 < s.weight (c :: rest) := by
  rw [boundary]
  split
  · exact weight_lt_of_length_lt (Nat.lt_succ_of_le (length_joint_le ..))
  split
  · exact weight_lt_of_length_lt (Nat.lt_succ_of_le (length_afterBracket_le ..))
  · simp [weight, h]

/-- A statement that does not end at a possible end goes on after it. -/
theorem length_lt_of_readEnding_eq_more {s t : OpenStatement} {c : Char} {rest text : List Char}
    (h : s.readEnding c rest = .more t text) : text.length < (c :: rest).length := by
  apply Nat.lt_succ_of_le
  cases s.readEnding_cases c with
  | colon _ heq | enclosed heq =>
    rw [heq] at h
    cases h
    exact Nat.le_refl _
  | constantBody _ heq =>
    rw [heq] at h
    cases h
    exact length_afterBracket_le ..
  | initializer _ heq =>
    rw [heq] at h
    cases hend : initializerEnd .none rest with
    | comma after =>
      rw [hend] at h
      cases h
      exact length_le_of_initializerEnd_eq_comma hend
    | semicolon | endOfText =>
      rw [hend] at h
      cases h
  | block _ heq | closeBrace _ heq | label _ heq | semicolon heq =>
    rw [heq] at h
    cases h

/-- After a step that goes on, less is to be done. -/
theorem weight_lt_of_step_eq_more {s t : OpenStatement} {c : Char} {rest text : List Char}
    (h : s.step c rest = .more t text) : t.weight text < s.weight (c :: rest) := by
  cases s.step_cases c with
  | gap hgap heq =>
    have hshorter : (skipGaps (c :: rest)).length < (c :: rest).length := length_skipGaps_lt hgap
    rw [heq] at h
    cases hgaps : skipGaps (c :: rest) with
    | nil =>
      rw [hgaps] at h
      cases h
    | cons d tail =>
      rw [hgaps] at h hshorter
      cases h
      exact weight_lt_of_length_lt (Nat.lt_of_le_of_lt (length_boundary_le s d tail) hshorter)
  | boundary hcurrent heq =>
    rw [heq] at h
    cases h
    exact weight_boundary_lt hcurrent c rest
  | quote _ heq =>
    rw [heq] at h
    cases h
    exact weight_lt_of_length_lt (Nat.lt_succ_of_le (length_afterQuote_le ..))
  | closeParenthesis _ _ heq =>
    rw [heq] at h
    cases h
    exact weight_lt_of_length_lt (Nat.lt_succ_of_le (length_skipBlanks_le rest))
  | ending _ _ heq => exact weight_lt_of_length_lt (length_lt_of_readEnding_eq_more (heq rest ▸ h))
  | openParenthesis _ _ heq | angle _ heq | character _ _ _ heq =>
    rw [heq] at h
    cases h
    exact weight_lt_of_length_lt (Nat.lt_succ_self _)

/-- Where reading ends a statement, it does so at what may end one, whatever
text follows. -/
theorem step_eq_readEnding {s : OpenStatement} {c : Char} {rest text : List Char}
    {statement : Statement (List Char)} (h : s.step c rest = .complete statement text)
    (rest' : List Char) : s.step c rest' = s.readEnding c rest' := by
  cases s.step_cases c with
  | ending _ _ heq => exact heq rest'
  | gap _ heq =>
    rw [heq] at h
    cases hgaps : skipGaps (c :: rest) <;> rw [hgaps] at h <;> cases h
  | boundary _ heq | quote _ heq | openParenthesis _ _ heq | closeParenthesis _ _ heq | angle _ heq
  | character _ _ _ heq =>
    rw [heq] at h
    cases h

/-! ## Reading to the end of the statement -/

/-- Read the rest of a statement. -/
def read (s : OpenStatement) : List Char → Option (Statement (List Char) × List Char)
  | [] => none
  | c :: rest =>
    match _ : s.step c rest with
    | .more t text => t.read text
    | .complete statement text => some (statement, text)
    | .cutOff => none
termination_by text => s.weight text
decreasing_by exact weight_lt_of_step_eq_more ‹_›

end OpenStatement

/-- The first statement of a text, and the text that follows it. -/
def scan (text : List Char) : Option (Statement (List Char) × List Char) :=
  OpenStatement.start.read (skipGaps text)

/-! ## What follows is shorter -/

/-- A statement as it is returned from a text: the text after it is
shorter, and a block lies between the two. -/
def Statement.Within (text : List Char) (s : Statement (List Char)) (rest : List Char) : Prop :=
  rest.length < text.length ∧
    ∀ body after, s.ending = .block body after → after = rest ∧ rest.length ≤ body.length ∧
      body.length < text.length

theorem Statement.Within.mono {text longer rest : List Char} {s : Statement (List Char)}
    (h : s.Within text rest) (hle : text.length ≤ longer.length) : s.Within longer rest :=
  ⟨Nat.lt_of_lt_of_le h.1 hle, fun body after hb =>
    have ⟨heq, hbody, hlt⟩ := h.2 body after hb
    ⟨heq, hbody, Nat.lt_of_lt_of_le hlt hle⟩⟩

namespace OpenStatement

/-- A statement that ends without a block has only to leave less text. -/
theorem within_finish {s : OpenStatement} {ending : Ending (List Char)} {text rest : List Char}
    (hnot : ∀ body after, ending ≠ .block body after) (h : rest.length < text.length) :
    (s.finish ending).Within text rest :=
  ⟨h, fun body after hb => absurd hb (hnot body after)⟩

theorem within_of_readEnding_eq_complete {s : OpenStatement} {c : Char} {rest text : List Char}
    {statement : Statement (List Char)} (h : s.readEnding c rest = .complete statement text) :
    statement.Within (c :: rest) text := by
  cases s.readEnding_cases c with
  | block _ heq =>
    rw [heq] at h
    cases h
    refine ⟨Nat.lt_succ_of_le (length_afterBracket_le ..), fun body after hb => ?_⟩
    cases hb
    exact ⟨rfl, length_afterBracket_le .., Nat.lt_succ_self _⟩
  | initializer _ heq =>
    rw [heq] at h
    cases hend : initializerEnd .none rest with
    | comma =>
      rw [hend] at h
      cases h
    | semicolon =>
      rw [hend] at h
      cases h
      exact within_finish (by simp)
        (Nat.lt_succ_of_lt (length_lt_of_initializerEnd_eq_semicolon hend))
    | endOfText =>
      rw [hend] at h
      cases h
      exact within_finish (by simp) (Nat.succ_pos _)
  | closeBrace _ heq | label _ heq | semicolon heq =>
    rw [heq] at h
    cases h
    exact within_finish (by simp) (Nat.lt_succ_self _)
  | colon _ heq | enclosed heq | constantBody _ heq =>
    rw [heq] at h
    cases h

theorem within_of_step_eq_complete {s : OpenStatement} {c : Char} {rest text : List Char}
    {statement : Statement (List Char)} (h : s.step c rest = .complete statement text) :
    statement.Within (c :: rest) text :=
  within_of_readEnding_eq_complete (step_eq_readEnding h rest ▸ h)

/-- A step that goes on leaves no more text than it found. -/
theorem length_le_of_step_eq_more {s t : OpenStatement} {c : Char} {rest text : List Char}
    (h : s.step c rest = .more t text) : text.length ≤ (c :: rest).length := by
  have hw := weight_lt_of_step_eq_more h
  simp only [weight] at hw
  split at hw <;> split at hw <;> omega

theorem within_of_read {s : OpenStatement} {text rest : List Char}
    {statement : Statement (List Char)} (h : s.read text = some (statement, rest)) :
    statement.Within text rest := by
  fun_induction read s text with
  | case1 => cases h
  | case2 s c tail t next hstep ih => exact (ih h).mono (length_le_of_step_eq_more hstep)
  | case3 s c tail statement next hstep =>
    cases h
    exact within_of_step_eq_complete hstep
  | case4 => cases h

end OpenStatement

theorem within_of_scan {text rest : List Char} {statement : Statement (List Char)}
    (h : scan text = some (statement, rest)) : statement.Within text rest :=
  (OpenStatement.within_of_read h).mono (length_skipGaps_le text)

/-- The text after a statement is shorter. -/
theorem length_lt_of_scan {text rest : List Char} {statement : Statement (List Char)}
    (h : scan text = some (statement, rest)) : rest.length < text.length :=
  (within_of_scan h).1

/-- The text inside a block is shorter. -/
theorem length_body_lt_of_scan {text rest body after : List Char}
    {statement : Statement (List Char)} (h : scan text = some (statement, rest))
    (hb : statement.ending = .block body after) : body.length < text.length :=
  ((within_of_scan h).2 body after hb).2.2

/-- The text goes on after a block where it goes on after the statement. -/
theorem after_eq_of_scan {text rest body after : List Char}
    {statement : Statement (List Char)} (h : scan text = some (statement, rest))
    (hb : statement.ending = .block body after) : after = rest :=
  ((within_of_scan h).2 body after hb).1

end JavaOutline
