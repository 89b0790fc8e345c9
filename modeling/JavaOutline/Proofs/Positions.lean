import JavaOutline.Proofs.Lexical.Indices
import JavaOutline.Statement.Position

/-!
# JavaOutline.Proofs.Positions

Reading a statement by indices.

The functions of `Indexed` go through a text as `OpenStatement.step` and
`OpenStatement.read` do, but keep the whole text and move an index in it.  Where they
take a character or an end of the text that is not there, they have no result.

A step by indices makes the step that is made on what begins at its index
(`Indexed.matches_step`), so the same statements are found at the same positions, and no
character or end is ever taken that is not there (`Indexed.statementAt?_eq`).
-/

namespace JavaOutline

open Text

/-- What reading on by indices brings. -/
inductive IndexedAdvance where
  /-- The statement goes on. -/
  | more (s : OpenStatement) (index : Nat)
  /-- The statement has ended. -/
  | complete (statement : Statement Nat) (next : Nat)
  /-- Nothing but blanks and comments is left. -/
  | cutOff

/-- Whether reading on by indices brings what reading on brings. -/
def IndexedAdvance.Matches (source : List Char) : IndexedAdvance → Advance → Prop
  | .more s index, .more t text => s = t ∧ Begins source index text
  | .complete statement next, .complete statement' rest =>
    statement = statement'.map (positionOf source) ∧ Begins source next rest
  | .cutOff, .cutOff => True
  | _, _ => False

namespace Indexed

variable (source : List Char)

/-! ## One step -/

/-- The statement and the index after a character that may join the token. -/
def joint (s : OpenStatement) (c : Char) (index : Nat) : OpenStatement × Nat :=
  let counted := s.countAngle c
  let ahead := afterBlanks source (index + 1)
  if c = '<' ∧ mayPrecedeTypeParameters s.current then
    ({ counted.endToken with current := "<" }, ahead)
  else if counted.joins c source[ahead]? then (counted.push c, ahead)
  else if OpenStatement.closesToken c then ((counted.push c).endToken, index + 1)
  else (counted.endToken, index + 1)

/-- The statement and the index after a boundary at which the text goes on. -/
def boundary? (s : OpenStatement) (c : Char) (index : Nat) : Option (OpenStatement × Nat) :=
  if OpenStatement.mayJoin c then some (joint source s c index)
  else if c = '(' ∧ s.atAnnotation then
    (afterBrackets? source '(' ')' 0 index).map fun next => (s.endToken, next)
  else some (s.endToken, index)

/-- The statement and the index after a `)`. -/
def closeParenthesis? (s : OpenStatement) (index : Nat) : Option (OpenStatement × Nat) :=
  let ahead := afterBlanks source (index + 1)
  (slice? source (min ahead source.length)).map fun text => (s.closeParenthesis text, ahead)

/-- Read on at one of `:`, `;`, `{`, `}` and `=`. -/
def readEnding? (s : OpenStatement) (c : Char) (index : Nat) : Option IndexedAdvance :=
  if c = ':' ∧ s.endsInLabel = false then some (.more (s.push c) (index + 1))
  else if 0 < s.parentheses then some (.more s (index + 1))
  else if c = '{' then
    (afterBrackets? source '{' '}' 0 index).map fun after =>
      if s.isLoneName then .more s.reopen after
      else .complete ⟨s.endToken.tokens, .block (index + 1) after⟩ after
  else if c = '=' then
    (initializerStop? source .none (index + 1)).map fun
      | .comma comma => .more s.reopen comma
      | .semicolon next => .complete ⟨s.endToken.tokens, .semicolon⟩ next
      | .endOfText => .complete ⟨s.endToken.tokens, .endOfText⟩ source.length
  else if c = '}' then some (.complete ⟨s.endToken.tokens, .closeBrace⟩ (index + 1))
  else if c = ':' then some (.complete ⟨s.endToken.tokens, .label⟩ (index + 1))
  else some (.complete ⟨s.endToken.tokens, .semicolon⟩ (index + 1))

/-- Read on at the character at an index. -/
def step? (s : OpenStatement) (c : Char) (index : Nat) : Option IndexedAdvance :=
  if isBlank c ∨ c = '/' then
    (afterGaps? source index).bind fun next =>
      match source[next]? with
      | none => some .cutOff
      | some d => (boundary? source s d next).map fun (t, after) => .more t after
  else if s.current ≠ "" ∧ OpenStatement.interruptsName c then
    (boundary? source s c index).map fun (t, after) => .more t after
  else if isQuote c then (afterLiteral? source index).map (.more s)
  else if c = '(' then some (.more s.openParenthesis (index + 1))
  else if c = ')' then (closeParenthesis? source s index).map fun (t, after) => .more t after
  else if OpenStatement.mayEnd c then readEnding? source s c index
  else if c = '<' then some (.more ((s.countAngle c).push c) (index + 1))
  else some (.more (s.push c) (index + 1))

/-! ## The same steps -/

section

variable {source : List Char} {text rest : List Char} {index : Nat} {c : Char}

/-- A text begins at its position. -/
theorem positionOf_of_begins (h : Begins source index text) : positionOf source text = index := by
  have hlength := h.length_eq
  rw [positionOf]
  omega

theorem joint_eq (s : OpenStatement) (c : Char) (h : Begins source (index + 1) rest) :
    (joint source s c index).1 = (s.joint c rest).1 ∧
      Begins source (joint source s c index).2 (s.joint c rest).2 := by
  have hahead := begins_afterBlanks h
  dsimp only [joint, OpenStatement.joint]
  rw [hahead.getElem?_eq]
  split
  · exact ⟨rfl, hahead⟩
  split
  · exact ⟨rfl, hahead⟩
  split
  · exact ⟨rfl, h⟩
  · exact ⟨rfl, h⟩

theorem exists_boundary? (s : OpenStatement) (h : Begins source index (c :: rest)) :
    ∃ next, boundary? source s c index = some ((s.boundary c rest).1, next) ∧
      Begins source next (s.boundary c rest).2 := by
  rw [boundary?, OpenStatement.boundary]
  split
  · obtain ⟨hstatement, hbegins⟩ := joint_eq s c h.tail
    exact ⟨_, by rw [← hstatement], hbegins⟩
  split
  · next hannotation =>
    obtain ⟨rfl, -⟩ := hannotation
    obtain ⟨next, hnext, hafter⟩ := leads_afterBrackets ')' (by decide) (by decide) h
    exact ⟨next, by rw [hnext]; rfl, hafter⟩
  · exact ⟨index, rfl, h⟩

theorem closeParenthesis?_eq (s : OpenStatement) (h : Begins source index (c :: rest)) :
    closeParenthesis? source s index =
      some (s.closeParenthesis (skipBlanks rest), afterBlanks source (index + 1)) := by
  have hahead := begins_afterBlanks h.tail
  rw [closeParenthesis?, Nat.min_eq_left hahead.le_length, slice?_of_begins hahead]
  rfl

theorem matches_readEnding (s : OpenStatement) (h : Begins source index (c :: rest)) :
    ∃ next, readEnding? source s c index = some next ∧
      next.Matches source (s.readEnding c rest) := by
  rw [readEnding?, OpenStatement.readEnding]
  split
  · exact ⟨_, rfl, rfl, h.tail⟩
  split
  · exact ⟨_, rfl, rfl, h.tail⟩
  split
  · next hbrace =>
    subst hbrace
    obtain ⟨after, hafter, hbegins⟩ := leads_afterBrackets '\x7d' (by decide) (by decide) h
    rw [hafter]
    refine ⟨_, rfl, ?_⟩
    dsimp only
    split
    · exact ⟨rfl, hbegins⟩
    · refine ⟨?_, hbegins⟩
      simp [Statement.map, OpenStatement.finish, Ending.map, positionOf_of_begins h.tail,
        positionOf_of_begins hbegins]
  split
  · obtain ⟨stop, hstop, hmatches⟩ := matches_initializerStop .none h.tail
    rw [hstop]
    refine ⟨_, rfl, ?_⟩
    cases stop <;> cases hend : initializerEnd .none rest <;> rw [hend] at hmatches <;>
      try contradiction
    · exact ⟨rfl, hmatches⟩
    · exact ⟨rfl, hmatches⟩
    · exact ⟨rfl, begins_nil source⟩
  split
  · exact ⟨_, rfl, rfl, h.tail⟩
  split
  · exact ⟨_, rfl, rfl, h.tail⟩
  · exact ⟨_, rfl, rfl, h.tail⟩

/-- A step by indices makes the step that is made on what begins at its index. -/
theorem matches_step (s : OpenStatement) (h : Begins source index (c :: rest)) :
    ∃ next, step? source s c index = some next ∧ next.Matches source (s.step c rest) := by
  rw [step?, OpenStatement.step]
  split
  · obtain ⟨start, hstart, hbegins⟩ := leads_afterGaps h
    rw [hstart, Option.bind_some, hbegins.getElem?_eq]
    cases hgaps : skipGaps (c :: rest) with
    | nil => exact ⟨_, rfl, trivial⟩
    | cons d tail =>
      rw [hgaps] at hbegins
      obtain ⟨next, hnext, hafter⟩ := exists_boundary? s hbegins
      refine ⟨.more _ next, ?_, rfl, hafter⟩
      rw [List.head?_cons]
      dsimp only
      rw [hnext]
      rfl
  split
  · obtain ⟨next, hnext, hafter⟩ := exists_boundary? s h
    exact ⟨.more _ next, by rw [hnext]; rfl, rfl, hafter⟩
  split
  · obtain ⟨next, hnext, hafter⟩ := leads_afterLiteral h
    exact ⟨.more s next, by rw [hnext]; rfl, rfl, hafter⟩
  split
  · exact ⟨_, rfl, rfl, h.tail⟩
  split
  · exact ⟨.more _ _, by rw [closeParenthesis?_eq s h]; rfl, rfl, begins_afterBlanks h.tail⟩
  split
  · exact matches_readEnding s h
  split
  · exact ⟨_, rfl, rfl, h.tail⟩
  · exact ⟨_, rfl, rfl, h.tail⟩

/-- After a step that goes on, less is to be done. -/
theorem weight_lt_of_step?_eq_more {s t : OpenStatement} {next : Nat}
    (hc : source[index]? = some c) (hstep : step? source s c index = some (.more t next)) :
    t.weight (source.drop next) < s.weight (source.drop index) := by
  have hbegins := begins_of_getElem?_eq_some hc
  obtain ⟨found, hfound, hmatches⟩ := matches_step s hbegins
  rw [hstep] at hfound
  cases hfound
  cases hread : s.step c (source.drop (index + 1)) with
  | more u text =>
    rw [hread] at hmatches
    obtain ⟨rfl, hnext⟩ := hmatches
    rw [hnext.drop_eq, hbegins.drop_eq]
    exact OpenStatement.weight_lt_of_step_eq_more hread
  | complete | cutOff =>
    rw [hread] at hmatches
    contradiction

end

/-! ## Statements -/

/-- Read the rest of a statement from an index on. -/
def read? (s : OpenStatement) (index : Nat) : Option (Option (Statement Nat × Nat)) :=
  match _ : source[index]? with
  | none => some none
  | some c =>
    match _ : step? source s c index with
    | none => none
    | some (.more t next) => read? t next
    | some (.complete statement next) => some (some (statement, next))
    | some .cutOff => some none
termination_by s.weight (source.drop index)
decreasing_by exact weight_lt_of_step?_eq_more ‹_› ‹_›

/-- The first statement from an index on, which may be behind the end. -/
def statementAt? (cursor : Nat) : Option (Option (Statement Nat × Nat)) :=
  (afterGaps? source cursor).bind fun start =>
    if source.length ≤ start then some none else read? source .start start

section

variable {source text rest : List Char} {index : Nat} {c : Char}

/-- Reading is a step at the first character, and reading on where it leads. -/
theorem read?_of_begins (s : OpenStatement) (h : Begins source index (c :: rest)) :
    ∃ found : IndexedAdvance, found.Matches source (s.step c rest) ∧ read? source s index =
      match found with
      | .more t next => read? source t next
      | .complete statement next => some (some (statement, next))
      | .cutOff => some none := by
  have hc : source[index]? = some c := h.getElem?_eq
  obtain ⟨found, hfound, hmatches⟩ := matches_step s h
  refine ⟨found, hmatches, ?_⟩
  rw [read?]
  split
  · next hnone => rw [hc] at hnone; cases hnone
  next d hd =>
  rw [hc] at hd
  cases hd
  split <;>
    · next hstep =>
      rw [hfound] at hstep
      cases hstep <;> rfl

/-- Reading by indices reads what begins at the index. -/
theorem read?_eq (s : OpenStatement) (h : Begins source index text) :
    read? source s index = some ((s.read text).map (withPositions source)) := by
  fun_induction OpenStatement.read s text generalizing index with
  | case1 s =>
    have hnone : source[index]? = none := h.getElem?_eq
    rw [read?]
    split
    · rfl
    · next hc => rw [hnone] at hc; cases hc
  | case2 s c tail t next hstep ih =>
    obtain ⟨found, hmatches, hread⟩ := read?_of_begins s h
    rw [hstep] at hmatches
    rw [hread]
    cases found with
    | more u index =>
      obtain ⟨rfl, hnext⟩ := hmatches
      exact ih hnext
    | complete | cutOff => contradiction
  | case3 s c tail statement next hstep =>
    obtain ⟨found, hmatches, hread⟩ := read?_of_begins s h
    rw [hstep] at hmatches
    rw [hread]
    cases found with
    | complete found index =>
      obtain ⟨rfl, hnext⟩ := hmatches
      rw [Option.map_some, withPositions, positionOf_of_begins hnext]
    | more | cutOff => contradiction
  | case4 s c tail hstep =>
    obtain ⟨found, hmatches, hread⟩ := read?_of_begins s h
    rw [hstep] at hmatches
    rw [hread]
    cases found with
    | cutOff => rfl
    | more | complete => contradiction

/-- Behind the end there are no blanks and no comments. -/
theorem afterGaps?_of_length_lt (h : source.length < index) :
    afterGaps? source index = some index := by
  have hnone : source[index]? = none := List.getElem?_eq_none (Nat.le_of_lt h)
  have hblanks : afterBlanks source index = index := by
    rw [afterBlanks]
    split
    · rfl
    · next hc => rw [hnone] at hc; cases hc
  rw [afterGaps?, hblanks]
  split
  · next hslash => rw [hnone] at hslash; cases hslash
  · rfl

/-- **Nothing is taken that is not there.**  Whatever the cursor, also one behind the
end, reading by indices has a result, and finds the statement that `statementAt` finds. -/
theorem statementAt?_eq (source : List Char) (cursor : Nat) :
    statementAt? source cursor = some (statementAt source cursor) := by
  have hnothing : OpenStatement.start.read [] = none := by rw [OpenStatement.read]
  rcases Nat.lt_or_ge source.length cursor with hbehind | hcursor
  · have hdrop : source.drop cursor = [] := List.drop_eq_nil_of_le (Nat.le_of_lt hbehind)
    rw [statementAt?, afterGaps?_of_length_lt hbehind, Option.bind_some,
      if_pos (Nat.le_of_lt hbehind), statementAt, hdrop, scan, skipGaps_nil, hnothing]
    rfl
  · obtain ⟨start, hstart, hbegins⟩ := leads_afterGaps (begins_drop hcursor)
    rw [statementAt?, hstart, Option.bind_some, statementAt, scan]
    split
    · next hend =>
      have hempty : skipGaps (source.drop cursor) = [] := by
        have hlength := hbegins.length_eq
        exact List.eq_nil_of_length_eq_zero (by omega)
      rw [hempty, hnothing]
      rfl
    · exact read?_eq .start hbegins

end

end Indexed

end JavaOutline
