import JavaOutline.Outline
import JavaOutline.Registry

/-!
# JavaOutline.Session

Reading a text into a registry.  A session goes through the statements of a
text as its outline does, but keeps no records: as soon as the body of a
type ends, its record is registered, or given up if the full name is taken.

Only the end of a body looks at the registry.
-/

namespace JavaOutline

/-- How far reading into a registry has come. -/
structure Session where
  /-- Where the next statement stands. -/
  nesting : Nesting (List Char)
  registry : Registry
  /-- The full names that have been registered, in order. -/
  accepted : List String

namespace Session

/-- Nothing has been read. -/
def start (r : Registry) : Session := ⟨.empty, r, []⟩

/-- Do in the bodies that are open what reading does there. -/
def update (s : Session) (f : Progress → Progress) : Session :=
  { s with nesting := (f ⟨s.nesting, []⟩).nesting }

/-- Leave the body of a type, and register its record unless the full name
is taken. -/
def closeType (s : Session) : Session :=
  match s.nesting.pop? with
  | none => s
  | some (frame, outer) =>
    match s.registry.register frame.record with
    | .ok registry => ⟨outer, registry, s.accepted ++ [frame.record.fullName]⟩
    | .error _ => { s with nesting := outer }

/-- Read the statements of a text up to the end of the innermost body;
`withLocals` says whether the variables of method bodies are wanted. -/
def read (withLocals : Bool) (s : Session) (text : List Char) : Session :=
  match _ : scan text with
  | none => s
  | some (statement, rest) =>
    let reading := Reading.ofTokens s.nesting.level statement.tokens
    let t := s.update fun p => reading.clauses.foldl Progress.apply p
    match _ : statement.ending with
    | .block body _ =>
      match reading.declaration, withLocals with
      | .type header, _ =>
        (((t.update (·.openType header rest)).read withLocals body).closeType).read withLocals rest
      | .method method, true =>
        (((t.update (·.openMethod rest)).read withLocals body).update
          (·.closeMethod method)).read withLocals rest
      | declaration, _ =>
        let u := t.update (·.declare declaration)
        if Progress.entersBlock ⟨u.nesting, []⟩ statement.tokens then
          ({ u with nesting := u.nesting.enterBlock } : Session).read withLocals body
        else u.read withLocals rest
    | .closeBrace =>
      let u := t.update (·.declare reading.declaration)
      match u.nesting.leaveBlock? with
      | some nesting => ({ u with nesting } : Session).read withLocals rest
      | none => u
    | _ => (t.update (·.declare reading.declaration)).read withLocals rest
termination_by text.length
decreasing_by
  all_goals
    first
      | exact length_lt_of_scan ‹_›
      | exact length_body_lt_of_scan ‹_› ‹_›

end Session

/-- Register the types that a text declares, and return the full names of
those registered. -/
def Registry.readText (r : Registry) (withLocals : Bool) (text : String) : Registry × List String :=
  let session := (Session.start r).read withLocals text.toList
  (session.registry, session.accepted)

end JavaOutline
