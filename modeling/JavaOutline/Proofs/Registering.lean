import JavaOutline.Proofs.Registration
import JavaOutline.Proofs.Visits
import JavaOutline.Session

/-!
# JavaOutline.Proofs.Registering

A session registers each record when its body ends, and comes to what registering
the outline of the text comes to.

`Progress.session` is the session that has come as far as a progress, with its
records registered one after the other.  What reading does in the bodies that are
open, the session does as well (`Progress.StaysInside.update`); a body that ends
registers one more record (`Progress.closeType_session`).  So the two make the same
moves (`Progress.read_session_of_scan`) and come to the same
(`Progress.read_session`, `Registry.readText_eq`).
-/

namespace JavaOutline

namespace Registry

/-- One more record is registered after the others. -/
theorem registerAll_concat (r : Registry) (records : List TypeRecord) (record : TypeRecord) :
    r.registerAll (records ++ [record]) = (r.registerAll records).add record := by
  rw [registerAll, List.foldl_append]
  rfl

end Registry

namespace Session

/-- How a session goes on after a statement whose clauses have been applied. -/
def readAfter (withLocals : Bool) (t : Session) (declaration : Declaration)
    (tokens : List String) (ending : Ending (List Char)) (rest : List Char) : Session :=
  match ending with
  | .block body _ =>
    match declaration, withLocals with
    | .type header, _ =>
      (((t.update (·.openType header rest)).read withLocals body).closeType).read withLocals rest
    | .method method, true =>
      (((t.update (·.openMethod rest)).read withLocals body).update
        (·.closeMethod method)).read withLocals rest
    | declaration, _ =>
      let u := t.update (·.declare declaration)
      if Progress.entersBlock ⟨u.nesting, []⟩ tokens then
        ({ u with nesting := u.nesting.enterBlock } : Session).read withLocals body
      else u.read withLocals rest
  | .closeBrace =>
    let u := t.update (·.declare declaration)
    match u.nesting.leaveBlock? with
    | some nesting => ({ u with nesting } : Session).read withLocals rest
    | none => u
  | _ => (t.update (·.declare declaration)).read withLocals rest

section

variable {withLocals : Bool} {s : Session} {text rest : List Char}
  {statement : Statement (List Char)}

theorem read_of_scan_eq_none (h : scan text = none) : s.read withLocals text = s := by
  rw [read]
  split
  · rfl
  · next h' => rw [h] at h'; cases h'

theorem read_of_scan (h : scan text = some (statement, rest)) :
    s.read withLocals text =
      (s.update fun p =>
        (Reading.ofTokens s.nesting.level statement.tokens).clauses.foldl Progress.apply p).readAfter
        withLocals (Reading.ofTokens s.nesting.level statement.tokens).declaration
        statement.tokens statement.ending rest := by
  rw [read]
  split
  · next h' => rw [h] at h'; cases h'
  · next h' =>
      rw [h] at h'
      cases h'
      dsimp only
      cases hending : statement.ending with
      | block body after =>
          cases (Reading.ofTokens s.nesting.level statement.tokens).declaration <;>
            cases withLocals <;> simp [readAfter]
      | closeBrace => rfl
      | semicolon => rfl
      | label => rfl
      | endOfText => rfl

end

end Session

namespace Progress

/-- The session that has come as far, the complete records being registered. -/
def session (r : Registry) (p : Progress) : Session :=
  let registration := r.registerAll p.records
  ⟨p.nesting, registration.registry, registration.accepted⟩

/-! ## What reading does inside bodies -/

/-- Whether a change concerns the bodies that are open and nothing else. -/
def StaysInside (f : Progress → Progress) : Prop :=
  ∀ p : Progress, f p = ⟨(f ⟨p.nesting, []⟩).nesting, p.records⟩

/-- Inside the bodies a session does what reading does. -/
theorem StaysInside.update {f : Progress → Progress} (hf : StaysInside f) (r : Registry)
    (p : Progress) : (p.session r).update f = (f p).session r := by
  rw [hf p]
  rfl

theorem staysInside_apply (clause : Clause) : StaysInside (apply · clause) := fun _ => by
  cases clause <;> rfl

/-- Changes one after the other. -/
theorem StaysInside.andThen {f g : Progress → Progress} (hf : StaysInside f) (hg : StaysInside g) :
    StaysInside fun p => g (f p) := fun p => by
  have hnone : f ⟨p.nesting, []⟩ = ⟨(f ⟨p.nesting, []⟩).nesting, []⟩ := hf ⟨p.nesting, []⟩
  calc g (f p) = g ⟨(f ⟨p.nesting, []⟩).nesting, p.records⟩ := congrArg g (hf p)
    _ = ⟨(g ⟨(f ⟨p.nesting, []⟩).nesting, []⟩).nesting, p.records⟩ := hg _
    _ = ⟨(g (f ⟨p.nesting, []⟩)).nesting, p.records⟩ := by rw [← hnone]

theorem staysInside_applyAll (clauses : List Clause) :
    StaysInside fun p => clauses.foldl apply p := by
  induction clauses with
  | nil => exact fun _ => rfl
  | cons clause clauses ih => exact (staysInside_apply clause).andThen ih

theorem staysInside_declare (declaration : Declaration) :
    StaysInside (declare · declaration) := fun _ => by
  cases declaration <;> rfl

theorem staysInside_openBody (resume : List Char) (owner : Owner) :
    StaysInside (openBody · resume owner) := fun _ => by
  cases owner <;> rfl

theorem staysInside_closeMethod (method : Method) :
    StaysInside (closeMethod · method) := fun p => by
  simp only [closeMethod]
  cases p.nesting.pop? <;> rfl

/-! ## Bodies that end -/

/-- Where the body of a type ends, its record is registered after the others. -/
theorem closeType_session (r : Registry) (p : Progress) :
    (p.session r).closeType = p.closeType.session r := by
  obtain ⟨⟨file, frames⟩, records⟩ := p
  cases frames with
  | nil => rfl
  | cons frame outer =>
      simp only [closeType, Nesting.pop?, session, Session.closeType, Registry.registerAll_concat,
        Registry.Registration.add]
      cases (r.registerAll records).registry.register frame.record <;> rfl

end Progress

/-- Leave the body of a type or a method. -/
def Session.closeBody (s : Session) : Progress.Owner → Session
  | .type _ => s.closeType
  | .method method => s.update (Progress.closeMethod · method)

namespace Progress

theorem closeBody_session (r : Registry) (p : Progress) (owner : Owner) :
    (p.session r).closeBody owner = (p.closeBody owner).session r := by
  cases owner with
  | type header => exact p.closeType_session r
  | method method => exact (staysInside_closeMethod method).update r p

/-! ## Reading into a registry -/

/-- What a session comes to after a statement. -/
def Move.register (withLocals : Bool) (r : Registry) : Move → Session
  | .leave q => q.session r
  | .goOn q text => (q.session r).read withLocals text
  | .enter q owner body rest =>
    ((((q.openBody rest owner).session r).read withLocals body).closeBody owner).read
      withLocals rest

/-- After its clauses, a session makes the moves that reading makes. -/
theorem readAfter_session (withLocals : Bool) (r : Registry) (q : Progress)
    (declaration : Declaration) (tokens : List String) (ending : Ending (List Char))
    (rest : List Char) :
    (q.session r).readAfter withLocals declaration tokens ending rest =
      (moveAfter withLocals q declaration tokens ending rest).register withLocals r := by
  have hdeclare (declaration : Declaration) := (staysInside_declare declaration).update r q
  cases ending with
  | block body after =>
      cases declaration with
      | nothing | fields =>
          simp only [Session.readAfter, moveAfter, ownerOf?, hdeclare]
          rw [apply_ite (Move.register withLocals r)]
          rfl
      | type header =>
          have hopen := (staysInside_openBody rest (.type header)).update r q
          simp only [Session.readAfter, moveAfter, ownerOf?, Move.register, ← hopen]
          rfl
      | method method =>
          cases withLocals with
          | false =>
              simp only [Session.readAfter, moveAfter, ownerOf?, hdeclare]
              rw [apply_ite (Move.register false r)]
              rfl
          | true =>
              have hopen := (staysInside_openBody rest (.method method)).update r q
              simp only [Session.readAfter, moveAfter, ownerOf?, Move.register, ← hopen]
              rfl
  | closeBrace =>
      simp only [Session.readAfter, moveAfter, hdeclare]
      have hnesting : ((q.declare declaration).session r).nesting =
        (q.declare declaration).nesting := rfl
      rw [hnesting]
      cases (q.declare declaration).nesting.leaveBlock? <;> rfl
  | semicolon | label | endOfText =>
      simp only [Session.readAfter, moveAfter, hdeclare, Move.register]

section

variable {withLocals : Bool} {text rest : List Char} {statement : Statement (List Char)}

/-- A session makes the moves that reading makes. -/
theorem read_session_of_scan (r : Registry) (p : Progress)
    (h : scan text = some (statement, rest)) :
    (p.session r).read withLocals text =
      (p.move withLocals statement rest).register withLocals r := by
  rw [Session.read_of_scan h, move, ← readAfter_session]
  have hclauses := (staysInside_applyAll
    (Reading.ofTokens p.nesting.level statement.tokens).clauses).update r p
  rw [← hclauses]
  rfl

end

/-- **A session registers the outline of its text.** -/
theorem read_session (r : Registry) (withLocals : Bool) (p : Progress) (text : List Char) :
    (p.session r).read withLocals text = (p.read withLocals text).session r := by
  induction p, text using read_induction withLocals with
  | cutOff p text hscan => rw [Session.read_of_scan_eq_none hscan, read_of_scan_eq_none hscan]
  | leave p text statement rest q hscan hmove =>
      rw [read_session_of_scan r p hscan, read_of_scan_of_move hscan, hmove]
      rfl
  | goOn p text statement rest q next hscan hmove ih =>
      rw [read_session_of_scan r p hscan, read_of_scan_of_move hscan, hmove]
      exact ih
  | enter p text statement rest q owner body hscan hmove ihbody ihrest =>
      rw [read_session_of_scan r p hscan, read_of_scan_of_move hscan, hmove, Move.register, ihbody,
        closeBody_session]
      exact ihrest

end Progress

/-- **Reading a text into a registry registers its outline**: the records of the
types that it declares, one after the other. -/
theorem Registry.readText_eq (r : Registry) (withLocals : Bool) (text : String) :
    r.readText withLocals text =
      ((r.registerAll (outline withLocals text)).registry,
        (r.registerAll (outline withLocals text)).accepted) := by
  rw [readText, outline]
  exact congrArg (fun s : Session => (s.registry, s.accepted))
    (Progress.read_session r withLocals .start text.toList)

end JavaOutline
