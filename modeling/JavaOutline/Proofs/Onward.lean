import JavaOutline.Proofs.Positions
import JavaOutline.Proofs.Visits
import Mathlib.Algebra.Group.Nat.Defs

/-!
# JavaOutline.Proofs.Onward

Reading comes to an end, and never leaves the text.

* A statement is read step by step (`OpenStatement.Reaches`).  Each step
  stands at an end of the text, and there are at most twice as many steps as
  characters (`Reaches.suffix`, `Reaches.add_weight_le`), so reading halts
  with what `scan` returns (`OpenStatement.exists_halts`).
* The statements can be read by indices, and nothing is then taken that is not in the
  text (`Indexed.statementAt?_eq`).
* A text is read statement by statement (`Progress.reads`).  What is read
  after a statement, and the body that it enters, begin behind its beginning
  (`Progress.Move.follows_of_scan`), so there are less than `2 ^ n`
  statements in a text of `n` characters (`Progress.length_visits_lt`).

`reading_ends` puts them together, with places in the text as positions.
-/

namespace JavaOutline

namespace OpenStatement

/-! ## Steps of a statement -/

/-- A number of steps that lead from an open statement and the text after
it to another. -/
inductive Reaches : Nat → OpenStatement → List Char → OpenStatement → List Char → Prop
  | here (s : OpenStatement) (text : List Char) : Reaches 0 s text s text
  | step {n : Nat} {s t u : OpenStatement} {c : Char} {tail text rest : List Char}
      (hstep : s.step c tail = .more t text) (h : Reaches n t text u rest) :
      Reaches (n + 1) s (c :: tail) u rest

/-- Reading halts at the end of the text, or with a last step. -/
inductive Halts (s : OpenStatement) :
    List Char → Option (Statement (List Char) × List Char) → Prop
  | endOfText : Halts s [] none
  | cutOff {c : Char} {tail : List Char} (h : s.step c tail = .cutOff) : Halts s (c :: tail) none
  | complete {c : Char} {tail rest : List Char} {statement : Statement (List Char)}
      (h : s.step c tail = .complete statement rest) : Halts s (c :: tail) (some (statement, rest))

section

variable {n : Nat} {s t : OpenStatement} {text rest : List Char}

theorem Reaches.suffix (h : Reaches n s text t rest) : rest <:+ text := by
  induction h with
  | here => exact List.suffix_refl _
  | @step n s t u c tail text rest hstep _ ih =>
      have hstays := step_stays s c tail
      rw [hstep] at hstays
      exact ih.trans hstays

/-- Each step takes away of what is to be done. -/
theorem Reaches.add_weight_le (h : Reaches n s text t rest) :
    n + t.weight rest ≤ s.weight text := by
  induction h with
  | here => omega
  | step hstep _ ih =>
      have hlt := weight_lt_of_step_eq_more hstep
      omega

/-- Reading halts, with what is returned. -/
theorem exists_halts (s : OpenStatement) (text : List Char) :
    ∃ n t rest, Reaches n s text t rest ∧ Halts t rest (s.read text) := by
  fun_induction read s text with
  | case1 s => exact ⟨0, s, [], .here s [], .endOfText⟩
  | case2 s c tail t next hstep ih =>
      obtain ⟨n, u, rest, hreaches, hhalts⟩ := ih
      exact ⟨n + 1, u, rest, .step hstep hreaches, hhalts⟩
  | case3 s c tail statement next hstep =>
      exact ⟨0, s, c :: tail, .here s _, .complete hstep⟩
  | case4 s c tail hstep => exact ⟨0, s, c :: tail, .here s _, .cutOff hstep⟩

end

end OpenStatement

/-! ## Ends of a text and positions -/

section

variable {text rest : List Char}

theorem positionOf_le (text rest : List Char) : positionOf text rest ≤ text.length :=
  Nat.sub_le _ _

/-- An end of a text stands at its position. -/
theorem drop_positionOf (h : rest <:+ text) : text.drop (positionOf text rest) = rest :=
  (List.suffix_iff_eq_drop.1 h).symm

/-- The shorter of two ends stands behind the other. -/
theorem positionOf_lt {longer : List Char} (hlonger : longer.length ≤ text.length)
    (h : rest.length < longer.length) : positionOf text longer < positionOf text rest := by
  simp only [positionOf]
  omega

/-- What remains behind a position has not less text before it. -/
theorem le_positionOf {cursor : Nat} (h : rest <:+ text.drop cursor) :
    min cursor text.length ≤ positionOf text rest := by
  have hle := h.length_le
  simp only [List.length_drop] at hle
  simp only [positionOf]
  omega

/-- The character before an end of a text. -/
theorem getElem?_before_positionOf {c : Char} (h : c :: rest <:+ text) :
    text[positionOf text rest - 1]? = some c := by
  obtain ⟨before, rfl⟩ := h
  have hposition : positionOf (before ++ c :: rest) rest - 1 = before.length := by
    simp only [positionOf, List.length_append, List.length_cons]
    omega
  rw [hposition]
  simp

end

namespace Progress

/-! ## Statements of a text -/

/-- Reading a text in finitely many statements, with what it comes to. -/
inductive Reads (withLocals : Bool) : Progress → List Char → List Visit → Progress → Prop
  | cutOff {p : Progress} {text : List Char} (hscan : scan text = none) :
      Reads withLocals p text [] p
  | leave {p q : Progress} {text rest : List Char} {statement : Statement (List Char)}
      (hscan : scan text = some (statement, rest))
      (hmove : p.move withLocals statement rest = .leave q) :
      Reads withLocals p text [⟨p, text, statement, rest⟩] q
  | goOn {p q r : Progress} {text rest next : List Char} {statement : Statement (List Char)}
      {vs : List Visit} (hscan : scan text = some (statement, rest))
      (hmove : p.move withLocals statement rest = .goOn q next)
      (h : Reads withLocals q next vs r) :
      Reads withLocals p text (⟨p, text, statement, rest⟩ :: vs) r
  | enter {p q inside after : Progress} {text rest body : List Char}
      {statement : Statement (List Char)} {owner : Owner} {vs ws : List Visit}
      (hscan : scan text = some (statement, rest))
      (hmove : p.move withLocals statement rest = .enter q owner body rest)
      (hbody : Reads withLocals (q.openBody rest owner) body vs inside)
      (hrest : Reads withLocals (inside.closeBody owner) rest ws after) :
      Reads withLocals p text (⟨p, text, statement, rest⟩ :: (vs ++ ws)) after

/-- Every text is read, in the statements that are visited. -/
theorem reads (withLocals : Bool) (p : Progress) (text : List Char) :
    Reads withLocals p text (p.visits withLocals text) (p.read withLocals text) := by
  induction p, text using read_induction withLocals with
  | cutOff p text hscan =>
      rw [visits_of_scan_eq_none hscan, read_of_scan_eq_none hscan]
      exact .cutOff hscan
  | leave p text statement rest q hscan hmove =>
      rw [visits_of_scan hscan, read_of_scan_of_move hscan, hmove]
      exact .leave hscan hmove
  | goOn p text statement rest q next hscan hmove ih =>
      rw [visits_of_scan hscan, read_of_scan_of_move hscan, hmove]
      exact .goOn hscan hmove ih
  | enter p text statement rest q owner body hscan hmove ihbody ihrest =>
      rw [visits_of_scan hscan, read_of_scan_of_move hscan, hmove]
      exact .enter hscan hmove ihbody ihrest

/-- What is read after a statement that begins at `start`, and what it
enters, begins behind its beginning; a body begins behind its brace. -/
def Move.Follows (text start : List Char) : Move → Prop
  | .leave _ => True
  | .goOn _ next => next <:+ text ∧ next.length < text.length
  | .enter _ _ body rest =>
    '\x7b' :: body <:+ start ∧ rest <:+ text ∧ rest.length < text.length

section

variable {withLocals : Bool} {p : Progress} {text rest : List Char}
  {statement : Statement (List Char)}

theorem Move.follows_of_scan (withLocals : Bool) (p : Progress)
    (hscan : scan text = some (statement, rest)) :
    (p.move withLocals statement rest).Follows text (skipGaps text) := by
  cases hmove : p.move withLocals statement rest with
  | leave q => trivial
  | goOn q next =>
      refine ⟨?_, length_lt_of_goOn hscan hmove⟩
      rcases text_of_goOn hmove with rfl | ⟨after, hblock⟩
      · exact scan_suffix hscan
      · exact (List.suffix_cons _ next).trans (block_suffix_of_scan hscan hblock)
  | enter q owner body after =>
      obtain ⟨rfl, _, hblock⟩ := block_of_enter hmove
      exact ⟨(scan_stays hscan).2 body _ hblock, scan_suffix hscan, length_lt_of_scan hscan⟩

/-- A statement that is read is the first one of an end of the text. -/
theorem scan_of_mem_visits {v : Visit} (h : v ∈ p.visits withLocals text) :
    v.text <:+ text ∧ scan v.text = some (v.statement, v.rest) := by
  induction p, text using read_induction withLocals with
  | cutOff p text hscan =>
      rw [visits_of_scan_eq_none hscan] at h
      cases h
  | leave p text statement rest q hscan hmove =>
      rw [visits_of_scan hscan, hmove] at h
      rcases List.mem_cons.1 h with rfl | h
      · exact ⟨List.suffix_refl _, hscan⟩
      · cases h
  | goOn p text statement rest q next hscan hmove ih =>
      have hfollows := Move.follows_of_scan withLocals p hscan
      rw [hmove] at hfollows
      rw [visits_of_scan hscan, hmove] at h
      rcases List.mem_cons.1 h with rfl | h
      · exact ⟨List.suffix_refl _, hscan⟩
      · obtain ⟨hsuffix, hread⟩ := ih h
        exact ⟨hsuffix.trans hfollows.1, hread⟩
  | enter p text statement rest q owner body hscan hmove ihbody ihrest =>
      have hfollows := Move.follows_of_scan withLocals p hscan
      rw [hmove] at hfollows
      obtain ⟨hbody, hrest, _⟩ := hfollows
      rw [visits_of_scan hscan, hmove] at h
      rcases List.mem_cons.1 h with rfl | h
      · exact ⟨List.suffix_refl _, hscan⟩
      rcases List.mem_append.1 h with h | h
      · obtain ⟨hsuffix, hread⟩ := ihbody h
        exact ⟨((hsuffix.trans (List.suffix_cons _ body)).trans hbody).trans
          (skipGaps_suffix text), hread⟩
      · obtain ⟨hsuffix, hread⟩ := ihrest h
        exact ⟨hsuffix.trans hrest, hread⟩

/-- A text is read in finitely many statements.  Each body that is entered
may be read to the end of the text, and the text after it is read again. -/
theorem length_visits_lt (withLocals : Bool) (p : Progress) (text : List Char) :
    (p.visits withLocals text).length < 2 ^ text.length := by
  induction p, text using read_induction withLocals with
  | cutOff p text hscan =>
      rw [visits_of_scan_eq_none hscan]
      exact Nat.two_pow_pos _
  | leave p text statement rest q hscan hmove =>
      have hne : text.length ≠ 0 := Nat.ne_of_gt (Nat.zero_lt_of_lt (length_lt_of_scan hscan))
      rw [visits_of_scan hscan, hmove]
      exact Nat.one_lt_two_pow hne
  | goOn p text statement rest q next hscan hmove ih =>
      have hnext : 2 ^ (next.length + 1) ≤ 2 ^ text.length :=
        Nat.pow_le_pow_right (by decide) (length_lt_of_goOn hscan hmove)
      rw [visits_of_scan hscan, hmove, List.length_cons, Move.visits]
      omega
  | enter p text statement rest q owner body hscan hmove ihbody ihrest =>
      obtain ⟨hbodylt, hrestlt⟩ := length_lt_of_enter hscan hmove
      have hbody : 2 ^ (body.length + 1) ≤ 2 ^ text.length :=
        Nat.pow_le_pow_right (by decide) hbodylt
      have hrest : 2 ^ (rest.length + 1) ≤ 2 ^ text.length :=
        Nat.pow_le_pow_right (by decide) hrestlt
      rw [visits_of_scan hscan, hmove, List.length_cons, Move.visits, List.length_append]
      omega

end

end Progress

/-! ## Positions -/

/-- A statement that is found from a position on ends behind it and in the
text; its block stands behind a brace and ends with the statement. -/
theorem positions_of_statementAt {source : List Char} {cursor next : Nat} {s : Statement Nat}
    (h : statementAt source cursor = some (s, next)) :
    cursor < next ∧ next ≤ source.length ∧
      ∀ body after, s.ending = .block body after →
        cursor < body ∧ body ≤ after ∧ after = next ∧ source[body - 1]? = some '\x7b' := by
  rw [statementAt] at h
  obtain ⟨⟨statement, rest⟩, hscan, heq⟩ := Option.map_eq_some_iff.1 h
  cases heq
  have hrest := length_lt_of_scan hscan
  rw [List.length_drop] at hrest
  refine ⟨by simp only [positionOf]; omega, positionOf_le _ _, fun body after hblock => ?_⟩
  obtain ⟨tokens, ending⟩ := statement
  cases ending with
  | block inside behind =>
      cases hblock
      have hafter := after_eq_of_scan hscan rfl
      have hlength := (suffix_body_of_scan hscan rfl).length_le
      have hbrace := block_suffix_of_scan hscan rfl
      have hinside := hbrace.length_le
      rw [List.length_cons, List.length_drop] at hinside
      refine ⟨by simp only [positionOf]; omega, ?_, by rw [hafter], ?_⟩
      · rw [hafter]
        simp only [positionOf]
        omega
      · exact getElem?_before_positionOf (hbrace.trans (List.drop_suffix cursor source))
  | semicolon => cases hblock
  | closeBrace => cases hblock
  | label => cases hblock
  | endOfText => cases hblock

/-- **Reading ends, and stays in the text.**  From any cursor, also beyond
the end, the next statement is read in at most twice as many steps as there
are characters left, all of which stand at positions between the cursor and
the end; it ends behind the cursor, and its block behind a brace.  Reading it
by indices finds the same, and no character or end of the text is taken that
is not there.  The whole text is read in finitely many statements, each of
which ends behind its beginning: what is read after it begins behind its
beginning as well, and a body that is entered begins behind its first
character. -/
theorem reading_ends (source : List Char) :
    (∀ cursor,
      (∃ n s rest, OpenStatement.Reaches n .start (skipGaps (source.drop cursor)) s rest ∧
        s.Halts rest (scan (source.drop cursor))) ∧
      (∀ n s rest, OpenStatement.Reaches n .start (skipGaps (source.drop cursor)) s rest →
        n ≤ 2 * (source.length - cursor) ∧
          min cursor source.length ≤ positionOf source rest ∧
          positionOf source rest ≤ source.length ∧
          source.drop (positionOf source rest) = rest) ∧
      ∀ statement next, statementAt source cursor = some (statement, next) →
        cursor < next ∧ next ≤ source.length ∧
          ∀ body after, statement.ending = .block body after →
            cursor < body ∧ body ≤ after ∧ after = next ∧ source[body - 1]? = some '\x7b') ∧
    (∀ cursor, Indexed.statementAt? source cursor = some (statementAt source cursor)) ∧
    ∀ (withLocals : Bool) (p : Progress),
      p.Reads withLocals source (p.visits withLocals source) (p.read withLocals source) ∧
        (p.visits withLocals source).length < 2 ^ source.length ∧
        ∀ v ∈ p.visits withLocals source,
          source.drop (positionOf source v.text) = v.text ∧
            source.drop (positionOf source v.rest) = v.rest ∧
            positionOf source v.text < positionOf source v.rest ∧
            match v.move withLocals with
            | .leave _ => True
            | .goOn _ next =>
              positionOf source v.text < positionOf source next ∧
                source.drop (positionOf source next) = next
            | .enter _ _ body rest =>
              positionOf source (skipGaps v.text) < positionOf source body ∧
                positionOf source v.text < positionOf source rest ∧
                source.drop (positionOf source body) = body ∧
                source.drop (positionOf source rest) = rest := by
  refine ⟨fun cursor => ⟨OpenStatement.exists_halts _ _, fun n s rest hreaches => ?_,
    fun statement next => positions_of_statementAt⟩, Indexed.statementAt?_eq source,
    fun withLocals p => ⟨p.reads withLocals source, p.length_visits_lt withLocals source, fun v hv => ?_⟩⟩
  · have hsuffix : rest <:+ source.drop cursor := hreaches.suffix.trans (skipGaps_suffix _)
    refine ⟨?_, le_positionOf hsuffix, positionOf_le _ _,
      drop_positionOf (hsuffix.trans (List.drop_suffix cursor source))⟩
    have hweight := hreaches.add_weight_le
    have hgaps := length_skipGaps_le (source.drop cursor)
    have hstart : OpenStatement.start.current = "" := rfl
    rw [List.length_drop] at hgaps
    simp only [OpenStatement.weight, hstart, if_true] at hweight
    omega
  · obtain ⟨hsuffix, hscan⟩ := Progress.scan_of_mem_visits hv
    have hlength := hsuffix.length_le
    refine ⟨drop_positionOf hsuffix, drop_positionOf ((scan_suffix hscan).trans hsuffix),
      positionOf_lt hlength (length_lt_of_scan hscan), ?_⟩
    have hfollows := Progress.Move.follows_of_scan withLocals v.progress hscan
    rw [Progress.Visit.move]
    cases hmove : v.progress.move withLocals v.statement v.rest with
    | leave q => trivial
    | goOn q next =>
        rw [hmove] at hfollows
        exact ⟨positionOf_lt hlength hfollows.2, drop_positionOf (hfollows.1.trans hsuffix)⟩
    | enter q owner body rest =>
        rw [hmove] at hfollows
        obtain ⟨hbrace, hrest, hlt⟩ := hfollows
        have hstart : skipGaps v.text <:+ source := (skipGaps_suffix v.text).trans hsuffix
        exact ⟨positionOf_lt hstart.length_le (Nat.lt_of_succ_le hbrace.length_le),
          positionOf_lt hlength hlt,
          drop_positionOf (((List.suffix_cons _ body).trans hbrace).trans hstart),
          drop_positionOf (hrest.trans hsuffix)⟩

/-- The braces of `class A { int x; } `, and the place of its block. -/
example : statementAt "class A \x7b int x; \x7d ".toList 0 =
    some (⟨["class", "A"], .block 9 18⟩, 18) := by
  decide +kernel

end JavaOutline
