import JavaOutline.Proofs.Lexical.Regions
import JavaOutline.Proofs.Lexical.Steps
import JavaOutline.Statement.Position

/-!
# JavaOutline.Proofs.CodeTokens

What tokens are made of.  Tokens are ended, dropped, taken up again and put
together while a statement is read, but nothing is ever put into them that is
not in the code of the text, and nothing changes its place: the tokens with
the one that is being read are spelt, in order, by code characters read so far
that may stand in tokens (`SpeltBy`).

* `OpenStatement.step_spelt` — one step keeps this, whatever the text is;
* `scan_spelt`, `tokens_spelt_by_code` — so it holds of whole statements.
-/

namespace JavaOutline

open Text

/-- Whether a character may stand in a token: blanks, quotes and slashes may
not, and neither may what ends a statement or begins an initializer. -/
def inToken (c : Char) : Bool :=
  !isBlank c && !isQuote c && !(['/', ';', '\x7b', '\x7d', '='].contains c)

theorem inToken_iff {c : Char} : inToken c = true ↔
    isBlank c = false ∧ isQuote c = false ∧ c ∉ ['/', ';', '\x7b', '\x7d', '='] := by
  simp only [inToken, Bool.and_eq_true, Bool.not_eq_true', ← List.contains_iff_mem,
    Bool.not_eq_true, and_assoc]

/-! ## Spelling -/

/-- Tokens that have ended, none of them empty, and a token being read, which
are spelt in order by code characters that may stand in tokens. -/
structure SpeltBy (cs : List Char) (tokens : List String) (current : String) : Prop where
  inOrder : (tokens.flatMap String.toList ++ current.toList).Sublist (cs.filter inToken)
  nonempty : "" ∉ tokens

namespace SpeltBy

variable {cs : List Char} {tokens : List String} {current : String}

theorem nothing : SpeltBy [] [] "" := ⟨List.Sublist.refl [], List.not_mem_nil⟩

theorem append (h : SpeltBy cs tokens current) (ds : List Char) :
    SpeltBy (cs ++ ds) tokens current := by
  refine ⟨?_, h.nonempty⟩
  rw [List.filter_append]
  exact h.inOrder.trans (List.sublist_append_left _ _)

/-- Another character goes on with the token being read. -/
theorem push (h : SpeltBy cs tokens current) {c : Char} (hc : inToken c = true) :
    SpeltBy (cs ++ [c]) tokens (current.push c) := by
  refine ⟨?_, h.nonempty⟩
  rw [String.toList_push, ← List.append_assoc, List.filter_append, List.filter_cons_of_pos hc]
  exact h.inOrder.append (List.Sublist.refl _)

/-- The token being read is dropped. -/
theorem drop (h : SpeltBy cs tokens current) : SpeltBy cs tokens "" := by
  refine ⟨?_, h.nonempty⟩
  simpa using (List.sublist_append_left _ _).trans h.inOrder

/-- The token being read has ended. -/
theorem ended (h : SpeltBy cs tokens current) (hne : current ≠ "") :
    SpeltBy cs (tokens ++ [current]) "" := by
  refine ⟨?_, ?_⟩
  · simpa using h.inOrder
  · simp [h.nonempty, Ne.symm hne]

/-- Only some of the first tokens are kept. -/
theorem take (h : SpeltBy cs tokens current) (n : Nat) : SpeltBy cs (tokens.take n) "" := by
  refine ⟨?_, fun hin => h.nonempty (List.mem_of_mem_take hin)⟩
  have hfront : ((tokens.take n).flatMap String.toList).Sublist (tokens.flatMap String.toList) := by
    have hcut := congrArg (List.flatMap String.toList) (List.take_append_drop n tokens)
    rw [List.flatMap_append] at hcut
    exact hcut ▸ List.sublist_append_left _ _
  simpa using (hfront.trans (List.sublist_append_left _ _)).trans h.inOrder

/-- The last token goes on. -/
theorem reopened (h : SpeltBy cs tokens "") :
    SpeltBy cs tokens.dropLast ("" ++ tokens.getLast?.getD "") := by
  refine ⟨?_, fun hin => h.nonempty (List.dropLast_subset tokens hin)⟩
  rcases List.eq_nil_or_concat tokens with rfl | ⟨front, last, rfl⟩
  · simp
  · simpa using h.inOrder

/-! ### Reading on -/

variable {text rest : List Char}

/-- Nothing of what is passed over comes into the tokens. -/
theorem passing (h : SpeltBy cs tokens current) (hstep : InStep text rest) :
    ∃ ds, CodeUpTo .code text rest ds ∧ SpeltBy (cs ++ ds) tokens current := by
  obtain ⟨ds, hcode⟩ := hstep
  exact ⟨ds, hcode, h.append ds⟩

/-- A character comes into the tokens, and what follows is passed over. -/
theorem taking {c : Char} (h : SpeltBy (cs ++ [c]) tokens current) (hc : inToken c = true)
    (hstep : InStep text rest) :
    ∃ ds, CodeUpTo .code (c :: text) rest ds ∧ SpeltBy (cs ++ ds) tokens current := by
  obtain ⟨-, hquote, hmark⟩ := inToken_iff.1 hc
  obtain ⟨ds, hcode, hspelt⟩ := h.passing hstep
  have hslash : c = '/' → text.head? ≠ some '/' ∧ text.head? ≠ some '*' := by
    rintro rfl
    exact absurd (by simp) hmark
  exact ⟨[c] ++ ds, (CodeUpTo.single hquote hslash).trans hcode, by rwa [← List.append_assoc]⟩

end SpeltBy

/-! ## One step -/

/-- What reading on brings is spelt by what spelt the tokens before and the
code that has been passed. -/
def Advance.Spelt (text cs : List Char) : Advance → Prop
  | .more t rest => ∃ ds, CodeUpTo .code text rest ds ∧ SpeltBy (cs ++ ds) t.tokens t.current
  | .complete statement rest =>
    ∃ ds, CodeUpTo .code text rest ds ∧ SpeltBy (cs ++ ds) statement.tokens ""
  | .cutOff => True

namespace OpenStatement

variable {s : OpenStatement} {cs : List Char}

theorem endToken_spelt (h : SpeltBy cs s.tokens s.current) :
    SpeltBy cs s.endToken.tokens "" := by
  rw [endToken]
  split
  · exact h.drop
  · next hne =>
      split
      · exact h.drop
      · exact h.ended hne

theorem reopen_spelt (h : SpeltBy cs s.tokens s.current) (hempty : s.current = "") :
    SpeltBy cs s.reopen.tokens s.reopen.current := by
  rw [hempty] at h
  simpa only [reopen, hempty] using h.reopened

/-- A character that joins tokens may stand in one. -/
theorem inToken_of_mayJoin {c : Char} (h : mayJoin c = true) : inToken c = true := by
  rw [mayJoin, List.contains_iff_mem] at h
  revert c
  decide

/-- Where a character may join the token, it stands in it or nowhere. -/
theorem joint_spelt (h : SpeltBy cs s.tokens s.current) {c : Char} (hc : mayJoin c = true)
    (rest : List Char) : ∃ ds, CodeUpTo .code (c :: rest) (s.joint c rest).2 ds ∧
      SpeltBy (cs ++ ds) (s.joint c rest).1.tokens (s.joint c rest).1.current := by
  have hin := inToken_of_mayJoin hc
  have hcounted : SpeltBy cs (s.countAngle c).tokens (s.countAngle c).current := by simpa using h
  have hpushed := hcounted.push hin
  dsimp only [joint]
  split
  · next hopens =>
      obtain ⟨rfl, -⟩ := hopens
      exact ((endToken_spelt hcounted).push hin).taking hin (inStep_skipBlanks rest)
  split
  · exact hpushed.taking hin (inStep_skipBlanks rest)
  split
  · have hended := endToken_spelt (s := (s.countAngle c).push c) hpushed
    rw [← current_endToken ((s.countAngle c).push c)] at hended
    exact hended.taking hin (.refl rest)
  · have hended := endToken_spelt hcounted
    rw [← current_endToken (s.countAngle c)] at hended
    exact (hended.append [c]).taking hin (.refl rest)

theorem boundary_spelt (h : SpeltBy cs s.tokens s.current) (c : Char) (rest : List Char) :
    ∃ ds, CodeUpTo .code (c :: rest) (s.boundary c rest).2 ds ∧
      SpeltBy (cs ++ ds) (s.boundary c rest).1.tokens (s.boundary c rest).1.current := by
  have hended := endToken_spelt h
  rw [← current_endToken s] at hended
  rw [boundary]
  split
  · next hjoin => exact joint_spelt h hjoin rest
  split
  · next hargument =>
      obtain ⟨rfl, -⟩ := hargument
      exact hended.passing (.cons (by decide) (by decide) (inStep_afterBracket '(' ')' 0 rest))
  · exact hended.passing (.refl _)

/-- The arguments of an enum constant are dropped, and its name goes on. -/
theorem closeParenthesis_spelt (h : SpeltBy cs s.tokens s.current) (hempty : s.current = "")
    (ahead : List Char) : SpeltBy (cs ++ [')']) (s.closeParenthesis ahead).tokens
      (s.closeParenthesis ahead).current := by
  have hclosed : SpeltBy (cs ++ [')']) (s.tokens ++ [")"]) "" := by
    rw [hempty] at h
    exact (h.push (c := ')') (by decide)).ended (by decide)
  dsimp only [closeParenthesis]
  split
  · simpa only [hempty] using hclosed
  · exact reopen_spelt (by simpa only [hempty] using hclosed.take 1) hempty

theorem readEnding_spelt (h : SpeltBy cs s.tokens s.current) {c : Char} (hends : mayEnd c = true)
    (hinterrupts : s.current = "" ∨ interruptsName c = false) (rest : List Char) :
    (s.readEnding c rest).Spelt (c :: rest) cs := by
  have hc : isQuote c = false ∧ c ≠ '/' ∧ (c = ':' → inToken c = true) ∧
      (c = '\x7b' ∨ c = '=' → interruptsName c = true) := by
    rw [mayEnd, List.contains_iff_mem] at hends
    clear hinterrupts
    revert c
    decide
  obtain ⟨hquote, hslash, hcolon, hopening⟩ := hc
  have hempty : c = '\x7b' ∨ c = '=' → s.current = "" := fun heq =>
    hinterrupts.resolve_right (by simp [hopening heq])
  have hpassing : ∀ {text : List Char}, InStep rest text → InStep (c :: rest) text :=
    .cons hquote hslash
  cases s.readEnding_cases c with
  | colon heq hread =>
      rw [hread]
      exact (h.push (hcolon heq)).taking (hcolon heq) (.refl rest)
  | enclosed hread => exact hread rest ▸ h.passing (hpassing (.refl rest))
  | constantBody heq hread =>
      rw [hread]
      exact (reopen_spelt h (hempty (.inl heq))).passing
        (hpassing (inStep_afterBracket '\x7b' '\x7d' 0 rest))
  | block _ hread =>
      rw [hread]
      exact (endToken_spelt h).passing (hpassing (inStep_afterBracket '\x7b' '\x7d' 0 rest))
  | initializer heq hread =>
      have hpassed := hpassing (inStep_initializerEnd .none rest)
      rw [hread]
      cases hend : initializerEnd .none rest with
      | comma =>
          rw [hend] at hpassed
          exact (reopen_spelt h (hempty (.inr heq))).passing hpassed
      | semicolon | endOfText =>
          rw [hend] at hpassed
          exact (endToken_spelt h).passing hpassed
  | closeBrace _ hread | label _ hread | semicolon hread =>
      exact hread rest ▸ (endToken_spelt h).passing (hpassing (.refl rest))

/-- A step keeps the tokens spelt by the code that has been read. -/
theorem step_spelt (h : SpeltBy cs s.tokens s.current) (c : Char) (rest : List Char) :
    (s.step c rest).Spelt (c :: rest) cs := by
  cases s.step_cases c with
  | gap _ heq =>
      -- The gap in front of the boundary holds at most slashes of code.
      obtain ⟨es, hgap, hspelt⟩ := h.passing (inStep_skipGaps (c :: rest))
      rw [heq]
      cases hgaps : skipGaps (c :: rest) with
      | nil => trivial
      | cons d tail =>
          rw [hgaps] at hgap
          obtain ⟨ds, hcode, hboundary⟩ := boundary_spelt hspelt d tail
          exact ⟨es ++ ds, hgap.trans hcode, by rwa [← List.append_assoc]⟩
  | boundary _ heq => exact heq rest ▸ boundary_spelt h c rest
  | quote hquote heq => exact heq rest ▸ h.passing (inStep_afterQuote hquote rest)
  | openParenthesis hc hempty heq =>
      subst hc
      have hopened : SpeltBy (cs ++ ['(']) (s.tokens ++ ["("]) s.current := by
        rw [hempty] at h ⊢
        exact (h.push (c := '(') (by decide)).ended (by decide)
      exact heq rest ▸ hopened.taking (by decide) (.refl rest)
  | closeParenthesis hc hempty heq =>
      subst hc
      rw [heq]
      exact (closeParenthesis_spelt h hempty _).taking (by decide) (inStep_skipBlanks rest)
  | ending hends hbetween heq => exact heq rest ▸ readEnding_spelt h hends hbetween rest
  | angle hc heq =>
      have hin : inToken c = true := hc ▸ by decide
      have hcounted : SpeltBy cs (s.countAngle c).tokens (s.countAngle c).current := by simpa using h
      exact heq rest ▸ (hcounted.push hin).taking hin (.refl rest)
  | character hblank hquote hnot heq =>
      have hkept : ∀ d ∈ ['/', ';', '\x7b', '\x7d', '='],
          d ∈ ['/', '(', ')', ':', ';', '\x7b', '\x7d', '='] := by decide
      have hin : inToken c = true := inToken_iff.2 ⟨hblank, hquote, fun hmem => hnot (hkept c hmem)⟩
      exact heq rest ▸ (h.push hin).taking hin (.refl rest)

/-! ## Statements -/

/-- Reading a statement on keeps the tokens spelt by the code. -/
theorem read_spelt {text rest : List Char} {statement : Statement (List Char)}
    (hread : s.read text = some (statement, rest)) (h : SpeltBy cs s.tokens s.current) :
    (Advance.complete statement rest).Spelt text cs := by
  fun_induction read s text generalizing cs with
  | case1 => cases hread
  | case2 s c tail t next hstep ih =>
      have hspelt := step_spelt h c tail
      rw [hstep] at hspelt
      obtain ⟨ds, hcode, hnext⟩ := hspelt
      obtain ⟨es, hrest, hstatement⟩ := ih hread hnext
      exact ⟨ds ++ es, hcode.trans hrest, by rwa [← List.append_assoc]⟩
  | case3 s c tail statement next hstep =>
      cases hread
      exact hstep ▸ step_spelt h c tail
  | case4 => cases hread

end OpenStatement

/-- The tokens of a statement are spelt by the code between the beginning of
the text and what follows the statement. -/
theorem scan_spelt {text rest : List Char} {statement : Statement (List Char)}
    (h : scan text = some (statement, rest)) :
    ∃ cs, CodeUpTo .code text rest cs ∧ SpeltBy cs statement.tokens "" := by
  obtain ⟨cs, hgap, hspelt⟩ := SpeltBy.nothing.passing (inStep_skipGaps text)
  obtain ⟨ds, hcode, hstatement⟩ := OpenStatement.read_spelt h hspelt
  exact ⟨cs ++ ds, hgap.trans hcode, by simpa using hstatement⟩

/-- The characters of tokens that are spelt by code may stand in tokens. -/
theorem SpeltBy.inToken_of_mem {cs : List Char} {tokens : List String} {current : String}
    (h : SpeltBy cs tokens current) {token : String} (htoken : token ∈ tokens) {c : Char}
    (hc : c ∈ token.toList) : inToken c = true := by
  have hmem : c ∈ tokens.flatMap String.toList ++ current.toList :=
    List.mem_append_left _ (List.mem_flatMap.2 ⟨token, htoken, hc⟩)
  exact (List.mem_filter.1 (h.inOrder.subset hmem)).2

/-- The tokens of the statement at a position are spelt, in order, by the code
characters from the position to that after the statement. -/
theorem tokens_spelt_by_code {text : List Char} {cursor next : Nat} {statement : Statement Nat}
    (h : statementAt text cursor = some (statement, next)) :
    SpeltBy (codeBetween text cursor next) statement.tokens "" := by
  obtain ⟨⟨found, rest⟩, hscan, heq⟩ := Option.map_eq_some_iff.1 h
  cases heq
  obtain ⟨cs, hcode, hspelt⟩ := scan_spelt hscan
  have hcut : positionOf text rest - cursor = (text.drop cursor).length - rest.length := by
    rw [positionOf, List.length_drop]
    omega
  rw [codeBetween, hcut, hcode.codeOf_take]
  exact hspelt

end JavaOutline
