import JavaOutline.Outline

/-!
# JavaOutline.Proofs.Reading

Reading one statement at a time.  `Progress.read` scans a statement, asks
for its meaning, and goes on in a way that depends on the two; what it goes
on with is `Progress.readAfter`, and reading is unfolded by `read_of_scan`
and `read_of_scan_eq_none` alone.
-/

namespace JavaOutline

theorem foldl_addField (members : List Member) (r : TypeRecord) :
    members.foldl TypeRecord.addField r = { r with fields := r.fields ++ members } := by
  induction members generalizing r with
  | nil => simp
  | cons m members ih => simp [ih, TypeRecord.addField]

namespace Progress

/-- How reading goes on after a statement, `q` being the progress to which
the clauses of the statement have led. -/
def readAfter (withLocals : Bool) (q : Progress) (declaration : Declaration)
    (tokens : List String) (ending : Ending (List Char)) (rest : List Char) : Progress :=
  match ending with
  | .block body _ =>
    match declaration, withLocals with
    | .type header, _ =>
      (((q.openType header rest).read withLocals body).closeType).read withLocals rest
    | .method method, true =>
      (((q.openMethod rest).read withLocals body).closeMethod method).read withLocals rest
    | declaration, _ =>
      let r := q.declare declaration
      if r.entersBlock tokens then
        ({ r with nesting := r.nesting.enterBlock } : Progress).read withLocals body
      else r.read withLocals rest
  | .closeBrace =>
    let r := q.declare declaration
    match r.nesting.leaveBlock? with
    | some nesting => ({ r with nesting } : Progress).read withLocals rest
    | none => r
  | _ => (q.declare declaration).read withLocals rest

theorem read_of_scan_eq_none {withLocals : Bool} {p : Progress} {text : List Char}
    (h : scan text = none) : p.read withLocals text = p := by
  rw [read]
  split
  · rfl
  · next h' => rw [h] at h'; cases h'

theorem read_of_scan {withLocals : Bool} {p : Progress} {text rest : List Char}
    {statement : Statement (List Char)} (h : scan text = some (statement, rest)) :
    p.read withLocals text =
      readAfter withLocals
        ((Reading.ofTokens p.nesting.level statement.tokens).clauses.foldl apply p)
        (Reading.ofTokens p.nesting.level statement.tokens).declaration
        statement.tokens statement.ending rest := by
  rw [read]
  split
  · next h' => rw [h] at h'; cases h'
  · next h' =>
      rw [h] at h'
      cases h'
      dsimp only
      cases hending : statement.ending with
      | block body after =>
          cases (Reading.ofTokens p.nesting.level statement.tokens).declaration <;>
            cases withLocals <;> simp [readAfter]
      | closeBrace =>
          cases hleave : (declare ((Reading.ofTokens p.nesting.level
            statement.tokens).clauses.foldl apply p) (Reading.ofTokens p.nesting.level
              statement.tokens).declaration).nesting.leaveBlock? <;> simp [readAfter, hleave]
      | semicolon => simp [readAfter]
      | label => simp [readAfter]
      | endOfText => simp [readAfter]

/-- The method that is left is added with the variables of its body. -/
theorem closeMethod_of_push {p : Progress} {n : Nesting (List Char)} {frame : Frame (List Char)}
    (h : p.nesting = n.push frame) (method : Method) :
    p.closeMethod method = (⟨n, p.records⟩ : Progress).mapRecord fun record =>
      record.addMethod { method with locals := frame.record.fieldVariables } := by
  rw [closeMethod, h]
  rfl

end Progress

/-! ## Blocks in a text -/

namespace OpenStatement

/-- Reading goes on after the brace that closes the block of a
statement. -/
def ClosesBlock (statement : Statement (List Char)) (rest : List Char) : Prop :=
  ∀ body after, statement.ending = .block body after → rest = afterBracket '\x7b' '\x7d' 0 body

theorem closesBlock_of_readEnding {s : OpenStatement} {c : Char} {rest text : List Char}
    {statement : Statement (List Char)} (h : s.readEnding c rest = .complete statement text) :
    ClosesBlock statement text := by
  intro body after hblock
  cases s.readEnding_cases c with
  | block _ heq =>
      rw [heq] at h
      cases h
      cases hblock
      rfl
  | initializer _ heq =>
      rw [heq] at h
      cases hend : initializerEnd .none rest <;> rw [hend] at h <;> cases h <;> cases hblock
  | closeBrace _ heq | label _ heq | semicolon heq =>
      rw [heq] at h
      cases h
      cases hblock
  | colon _ heq | enclosed heq | constantBody _ heq =>
      rw [heq] at h
      cases h

theorem closesBlock_of_read {s : OpenStatement} {text rest : List Char}
    {statement : Statement (List Char)} (h : s.read text = some (statement, rest)) :
    ClosesBlock statement rest := by
  fun_induction read s text with
  | case1 => cases h
  | case2 s c tail t next hstep ih => exact ih h
  | case3 s c tail statement next hstep =>
      cases h
      exact closesBlock_of_readEnding (step_eq_readEnding hstep tail ▸ hstep)
  | case4 => cases h

end OpenStatement

/-- Reading goes on after the brace that closes the block of a
statement. -/
theorem rest_eq_of_scan {text rest body after : List Char} {statement : Statement (List Char)}
    (h : scan text = some (statement, rest)) (hblock : statement.ending = .block body after) :
    rest = afterBracket '\x7b' '\x7d' 0 body :=
  OpenStatement.closesBlock_of_read h body after hblock

end JavaOutline
