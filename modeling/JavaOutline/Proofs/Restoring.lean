import JavaOutline.Proofs.Frames
import JavaOutline.Proofs.Visits
import Mathlib.Data.List.Infix

/-!
# JavaOutline.Proofs.Restoring

What reading leaves of the bodies around: all of them as they were, except
that the innermost type has learned the names of the types that were entered
directly in its body or in a method of it.

`Progress.learned` are these names, and `Learns` says what becomes of a
nesting: the innermost body has other members and another scope, and the
innermost type knows the names.  Each move of a reading learns what it should
(`Progress.learns_move`, `Progress.learns_closeType`,
`Progress.learns_closeMethod`), and so does reading as a whole
(`Progress.learns_read`).  The fields of the innermost body stay its first ones
(`Progress.prefix_fields_read`).
-/

namespace JavaOutline

/-! ## Records that learn names -/

namespace TypeRecord

/-- Make simple names mean full names inside a type, one after the other. -/
def learn (r : TypeRecord) (entries : List (String × String)) : TypeRecord :=
  entries.foldl (fun r e => r.addImport e.1 e.2) r

@[simp] theorem learn_nil (r : TypeRecord) : r.learn [] = r := rfl

theorem learn_append (r : TypeRecord) (entries more : List (String × String)) :
    r.learn (entries ++ more) = (r.learn entries).learn more :=
  List.foldl_append

/-- Learning names changes the table of names at most. -/
theorem exists_learn_eq (r : TypeRecord) (entries : List (String × String)) :
    ∃ imports, r.learn entries = { r with imports } := by
  induction entries generalizing r with
  | nil => exact ⟨_, rfl⟩
  | cons entry entries ih => exact ih (r.addImport entry.1 entry.2)

/-- Learning names does not change what the type around is called. -/
@[simp] theorem outerName_learn (r : TypeRecord) (entries : List (String × String)) :
    (r.learn entries).outerName = r.outerName := by
  obtain ⟨imports, hlearn⟩ := r.exists_learn_eq entries
  rw [hlearn]

/-- A record that may have other members. -/
def SameButMembers (r r' : TypeRecord) : Prop :=
  ∃ fields methods, r' = { r with fields, methods }

namespace SameButMembers

variable {r r' r'' : TypeRecord}

theorem refl (r : TypeRecord) : r.SameButMembers r := ⟨_, _, rfl⟩

theorem trans (h : r.SameButMembers r') (h' : r'.SameButMembers r'') : r.SameButMembers r'' := by
  obtain ⟨_, _, rfl⟩ := h
  obtain ⟨fields, methods, rfl⟩ := h'
  exact ⟨fields, methods, rfl⟩

theorem addImport (h : r.SameButMembers r') (short full : String) :
    (r.addImport short full).SameButMembers (r'.addImport short full) := by
  obtain ⟨fields, methods, rfl⟩ := h
  exact ⟨fields, methods, rfl⟩

theorem learn (h : r.SameButMembers r') (entries : List (String × String)) :
    (r.learn entries).SameButMembers (r'.learn entries) := by
  induction entries generalizing r r' with
  | nil => exact h
  | cons entry entries ih => exact ih (h.addImport entry.1 entry.2)

theorem addFields (r : TypeRecord) (members : List Member) :
    r.SameButMembers (members.foldl TypeRecord.addField r) := by
  rw [foldl_addField]
  exact ⟨_, _, rfl⟩

theorem addMethod (r : TypeRecord) (method : Method) : r.SameButMembers (r.addMethod method) :=
  ⟨_, _, rfl⟩

theorem fullName_eq (h : r.SameButMembers r') : r'.fullName = r.fullName := by
  obtain ⟨_, _, rfl⟩ := h
  rfl

theorem outerName_eq (h : r.SameButMembers r') : r'.outerName = r.outerName := by
  obtain ⟨_, _, rfl⟩ := h
  rfl

end SameButMembers

/-- A record that learned names and may have other members. -/
theorem SameButMembers.exists_eq_of_learn {r r' : TypeRecord} {entries : List (String × String)}
    (h : (r.learn entries).SameButMembers r') :
    ∃ imports fields methods, r' = { r with imports, fields, methods } := by
  obtain ⟨fields, methods, rfl⟩ := h
  obtain ⟨imports, hlearn⟩ := r.exists_learn_eq entries
  exact ⟨imports, fields, methods, by rw [hlearn]⟩

/-- Learning names does not change the name of a type. -/
@[simp] theorem fullName_learn (r : TypeRecord) (entries : List (String × String)) :
    (r.learn entries).fullName = r.fullName := by
  obtain ⟨imports, hlearn⟩ := r.exists_learn_eq entries
  rw [hlearn]
  rfl

end TypeRecord

/-! ## Nestings that learn names -/

namespace Nesting

variable {place : Type}

theorem mapEnclosingOf_mapEnclosingOf (f g : TypeRecord → TypeRecord)
    (frames : List (Frame place)) :
    mapEnclosingOf g (mapEnclosingOf f frames) = mapEnclosingOf (fun r => g (f r)) frames := by
  fun_induction mapEnclosingOf f frames with
  | case1 => rfl
  | case2 => rfl
  | case3 _ _ _ _ _ ih => simp [mapEnclosingOf, ih]

theorem resumes_mapEnclosingOf (f : TypeRecord → TypeRecord) (frames : List (Frame place)) :
    (mapEnclosingOf f frames).map Frame.resume = frames.map Frame.resume := by
  fun_induction mapEnclosingOf f frames with
  | case1 => rfl
  | case2 => rfl
  | case3 _ _ _ _ _ ih => rw [List.map_cons, List.map_cons, ih]

theorem mapEnclosingOf_id (frames : List (Frame place)) :
    mapEnclosingOf (fun r => r) frames = frames := by
  induction frames with
  | nil => rfl
  | cons frame outer ih =>
      obtain ⟨kind, scope, record, resume⟩ := frame
      cases kind with
      | typeBody => rfl
      | methodBody depth => simp [mapEnclosingOf, ih]

end Nesting

/-- What becomes of a nesting while names are learned: the innermost body
may have other members and another scope, and the innermost type knows the
names. -/
inductive Learns {place : Type} (entries : List (String × String)) :
    Nesting place → Nesting place → Prop
  | file (scope scope' : Scope) : Learns entries ⟨scope, []⟩ ⟨scope', []⟩
  | type {file scope scope' : Scope} {record record' : TypeRecord} {resume : place}
      {outer : List (Frame place)} (h : (record.learn entries).SameButMembers record') :
      Learns entries ⟨file, ⟨.typeBody, scope, record, resume⟩ :: outer⟩
        ⟨file, ⟨.typeBody, scope', record', resume⟩ :: outer⟩
  | method {file scope scope' : Scope} {depth depth' : Nat} {record record' : TypeRecord}
      {resume : place} {outer outer' : List (Frame place)} (h : record.SameButMembers record')
      (houter : outer' = Nesting.mapEnclosingOf (fun r => r.learn entries) outer) :
      Learns entries ⟨file, ⟨.methodBody depth, scope, record, resume⟩ :: outer⟩
        ⟨file, ⟨.methodBody depth', scope', record', resume⟩ :: outer'⟩

namespace Learns

variable {place : Type} {entries more : List (String × String)} {a b c : Nesting place}

/-- A method in which nothing is learned. -/
theorem method_nil {file scope scope' : Scope} {depth depth' : Nat} {record record' : TypeRecord}
    {resume : place} (h : record.SameButMembers record') (outer : List (Frame place)) :
    Learns [] ⟨file, ⟨.methodBody depth, scope, record, resume⟩ :: outer⟩
      ⟨file, ⟨.methodBody depth', scope', record', resume⟩ :: outer⟩ :=
  .method h (by simp [Nesting.mapEnclosingOf_id])

/-- A nesting that stays as it is has learned nothing. -/
theorem refl (n : Nesting place) : Learns [] n n := by
  obtain ⟨file, frames⟩ := n
  cases frames with
  | nil => exact .file file file
  | cons frame outer =>
      obtain ⟨kind, scope, record, resume⟩ := frame
      cases kind with
      | typeBody => exact .type (.refl record)
      | methodBody depth => exact .method_nil (.refl record) outer

theorem trans (h : Learns entries a b) (h' : Learns more b c) : Learns (entries ++ more) a c := by
  cases h with
  | file => cases h' with | file => exact .file _ _
  | type h =>
      cases h' with
      | type h' =>
          refine .type ?_
          rw [TypeRecord.learn_append]
          exact (h.learn more).trans h'
  | method h houter =>
      cases h' with
      | method h' houter' =>
          refine .method (h.trans h') ?_
          rw [houter', houter, Nesting.mapEnclosingOf_mapEnclosingOf]
          simp only [TypeRecord.learn_append]

/-- A change that learns nothing may follow. -/
theorem trans_nil (h : Learns entries a b) (h' : Learns [] b c) : Learns entries a c := by
  have hboth := h.trans h'
  rwa [List.append_nil] at hboth

/-- The places after the bodies stay. -/
theorem resumes_eq (h : Learns entries a b) :
    b.frames.map Frame.resume = a.frames.map Frame.resume := by
  cases h with
  | file => rfl
  | type => rfl
  | @method _ _ _ _ _ _ _ _ outer _ _ houter =>
      rw [houter, List.map_cons, List.map_cons, Nesting.resumes_mapEnclosingOf]

/-! ### Changes of the innermost body -/

theorem mapScope (f : Scope → Scope) (n : Nesting place) : Learns [] n (n.mapScope f) := by
  obtain ⟨file, frames⟩ := n
  cases frames with
  | nil => exact .file _ _
  | cons frame outer =>
      obtain ⟨kind, scope, record, resume⟩ := frame
      cases kind with
      | typeBody => exact .type (.refl record)
      | methodBody depth => exact .method_nil (.refl record) outer

theorem mapRecord {f : TypeRecord → TypeRecord} (hf : ∀ r : TypeRecord, r.SameButMembers (f r))
    (n : Nesting place) : Learns [] n (n.mapRecord f) := by
  obtain ⟨file, frames⟩ := n
  cases frames with
  | nil => exact .file _ _
  | cons frame outer =>
      obtain ⟨kind, scope, record, resume⟩ := frame
      cases kind with
      | typeBody => exact .type (hf record)
      | methodBody depth => exact .method_nil (hf record) outer

theorem addMethod (method : Method) (n : Nesting place) :
    Learns [] n (n.mapRecord fun r => r.addMethod method) :=
  mapRecord (f := fun r => r.addMethod method) (fun r => .addMethod r method) n

theorem enterBlock (n : Nesting place) : Learns [] n n.enterBlock := by
  obtain ⟨file, frames⟩ := n
  match frames with
  | [] => exact .file _ _
  | ⟨.typeBody, _, record, _⟩ :: _ => exact .type (.refl record)
  | ⟨.methodBody _, _, record, _⟩ :: outer => exact .method_nil (.refl record) outer

theorem leaveBlock {n m : Nesting place} (h : n.leaveBlock? = some m) : Learns [] n m := by
  obtain ⟨file, frames⟩ := n
  match frames with
  | [] => cases h
  | ⟨.typeBody, _, _, _⟩ :: _ => cases h
  | ⟨.methodBody 0, _, _, _⟩ :: _ => cases h
  | ⟨.methodBody (_ + 1), _, record, _⟩ :: outer =>
      cases h
      exact .method_nil (.refl record) outer

/-! ### Bodies of their own -/

/-- The innermost type may learn names wherever reading stands. -/
theorem mapEnclosing (entries : List (String × String)) (n : Nesting place) :
    Learns entries n (n.mapEnclosing fun r => r.learn entries) := by
  obtain ⟨file, frames⟩ := n
  match frames with
  | [] => exact .file _ _
  | ⟨.typeBody, _, record, _⟩ :: _ => exact .type (.refl _)
  | ⟨.methodBody _, _, record, _⟩ :: _ => exact .method (.refl record) rfl

/-- What is learned in the body of a type, the type has learned. -/
theorem of_push_type {n m : Nesting place} {scope : Scope} {record : TypeRecord} {resume : place}
    (h : Learns entries (n.push ⟨.typeBody, scope, record, resume⟩) m) :
    ∃ frame, m = n.push frame ∧ (record.learn entries).SameButMembers frame.record := by
  obtain ⟨file, frames⟩ := n
  cases h with
  | @type _ _ scope' _ record' _ _ h =>
      exact ⟨⟨.typeBody, scope', record', resume⟩, rfl, h⟩

/-- What is learned in the body of a method, the innermost type around it
has learned. -/
theorem of_push_method {n m : Nesting place} {depth : Nat} {scope : Scope} {record : TypeRecord}
    {resume : place} (h : Learns entries (n.push ⟨.methodBody depth, scope, record, resume⟩) m) :
    ∃ frame, m = (n.mapEnclosing fun r => r.learn entries).push frame ∧
      record.SameButMembers frame.record := by
  obtain ⟨file, frames⟩ := n
  cases h with
  | @method _ _ scope' _ depth' _ record' _ _ _ h houter =>
      exact ⟨⟨.methodBody depth', scope', record', resume⟩, by rw [houter]; rfl, h⟩

end Learns

namespace Progress

/-! ## What a reading learns -/

/-- The name of a type that is entered, with what it means. -/
def entry? (p : Progress) : Owner → Option (String × String)
  | .type header => some (header.name, qualify p.nesting.scope.path header.name)
  | .method _ => none

/-- The names of the types that are entered while a text is read, each with
what it means, without those entered inside of a type. -/
def learned (withLocals : Bool) (p : Progress) (text : List Char) : List (String × String) :=
  match _ : scan text with
  | none => []
  | some (statement, rest) =>
    match _ : p.move withLocals statement rest with
    | .leave _ => []
    | .goOn q next => q.learned withLocals next
    | .enter q owner body after =>
      (match q.entry? owner with
        | some entry => [entry]
        | none => (q.openBody after owner).learned withLocals body) ++
        (((q.openBody after owner).read withLocals body).closeBody owner).learned withLocals after
termination_by text.length
decreasing_by
  · exact length_lt_of_goOn ‹_› ‹_›
  · exact (length_lt_of_enter ‹_› ‹_›).1
  · exact (length_lt_of_enter ‹_› ‹_›).2

/-- What is learned in a body that is entered. -/
def learnedIn (withLocals : Bool) (q : Progress) (body rest : List Char) (owner : Owner) :
    List (String × String) :=
  match q.entry? owner with
  | some entry => [entry]
  | none => (q.openBody rest owner).learned withLocals body

/-- What is learned after a statement. -/
def Move.learned (withLocals : Bool) : Move → List (String × String)
  | .leave _ => []
  | .goOn q text => q.learned withLocals text
  | .enter q owner body rest =>
    q.learnedIn withLocals body rest owner ++
      (((q.openBody rest owner).read withLocals body).closeBody owner).learned withLocals rest

section

variable {withLocals : Bool} {p q : Progress} {text rest : List Char}
  {statement : Statement (List Char)}

theorem learned_of_scan_eq_none (h : scan text = none) : p.learned withLocals text = [] := by
  rw [learned]
  split
  · rfl
  · next h' => rw [h] at h'; cases h'

theorem learned_of_scan (h : scan text = some (statement, rest)) :
    p.learned withLocals text = (p.move withLocals statement rest).learned withLocals := by
  rw [learned]
  split
  · next h' => rw [h] at h'; cases h'
  · next h' =>
      rw [h] at h'
      cases h'
      cases hmove : p.move withLocals statement rest <;> simp [Move.learned, learnedIn]

/-! ## Nothing else is changed -/

theorem keeps_move (withLocals : Bool) (p : Progress) (statement : Statement (List Char))
    (rest : List Char) : p.Keeps (p.move withLocals statement rest).progress :=
  move_invariant (I := p.Keeps) (fun q clause _ h => h.trans (.apply q clause))
    (fun q declaration _ h => h.trans (.declare q declaration)) (fun q h => h.trans (.enterBlock q))
    (fun _ _ hleave h => h.trans (.leaveBlock hleave)) (.refl p)

/-- No record is complete before a body ends. -/
theorem records_move (withLocals : Bool) (p : Progress) (statement : Statement (List Char))
    (rest : List Char) : (p.move withLocals statement rest).progress.records = p.records :=
  move_invariant (I := fun q => q.records = p.records)
    (fun _ clause _ h => by cases clause <;> exact h)
    (fun _ declaration _ h => by cases declaration <;> exact h) (fun _ h => h)
    (fun _ _ _ h => h) rfl

/-- A body that is entered and left is kept around. -/
theorem keeps_closeBody (withLocals : Bool) (q : Progress) (owner : Owner)
    (rest body : List Char) :
    q.Keeps (((q.openBody rest owner).read withLocals body).closeBody owner) := by
  cases owner with
  | type header =>
      obtain ⟨records, hclosed⟩ := closeType_read withLocals q header rest body
      rw [openBody, closeBody, hclosed]
      exact ⟨.mapEnclosingOf _ _, fun _ => rfl, List.prefix_append _ _⟩
  | method method => exact .closeMethod method (keeps_read withLocals (q.openMethod rest) body)

theorem learns_apply (q : Progress) (clause : Clause) :
    Learns [] q.nesting (q.apply clause).nesting := by
  cases clause with
  | package path => exact .mapScope (fun scope => { scope with path }) q.nesting
  | importOf full => exact .mapScope (importType full) q.nesting

theorem learns_declare (q : Progress) (declaration : Declaration) :
    Learns [] q.nesting (q.declare declaration).nesting := by
  cases declaration with
  | nothing => exact .refl _
  | type header => exact .refl _
  | fields members => exact .mapRecord (fun r => .addFields r members) _
  | method method => exact .addMethod method q.nesting

/-- Before a body is entered, nothing is learned. -/
theorem learns_move (withLocals : Bool) (p : Progress) (statement : Statement (List Char))
    (rest : List Char) :
    Learns [] p.nesting (p.move withLocals statement rest).progress.nesting :=
  move_invariant (I := fun q => Learns [] p.nesting q.nesting)
    (fun q clause _ h => h.trans (learns_apply q clause))
    (fun q declaration _ h => h.trans (learns_declare q declaration))
    (fun q h => h.trans (.enterBlock q.nesting))
    (fun _ _ hleave h => h.trans (.leaveBlock hleave)) (.refl p.nesting)

/-- A type that is left is learned by the type around it. -/
theorem learns_closeType (withLocals : Bool) (q : Progress) (header : TypeHeader)
    (resume body : List Char) :
    Learns [(header.name, qualify q.nesting.scope.path header.name)] q.nesting
      ((q.openType header resume).read withLocals body).closeType.nesting := by
  obtain ⟨records, hclosed⟩ := closeType_read withLocals q header resume body
  rw [hclosed]
  exact .mapEnclosing _ q.nesting

/-- A method that is left leaves what its body learned. -/
theorem learns_closeMethod {entries : List (String × String)} {resume : List Char}
    (method : Method) (h : Learns entries (q.openMethod resume).nesting p.nesting) :
    Learns entries q.nesting (p.closeMethod method).nesting := by
  obtain ⟨frame, hpush, _⟩ := Learns.of_push_method h
  rw [closeMethod_of_push hpush]
  exact (Learns.mapEnclosing entries q.nesting).trans_nil (.addMethod _ _)

/-- **What is around is restored.**  Whatever text is read, the bodies around
are as before, and the innermost type knows the names that were learned. -/
theorem learns_read (withLocals : Bool) (p : Progress) (text : List Char) :
    Learns (p.learned withLocals text) p.nesting (p.read withLocals text).nesting := by
  induction p, text using read_induction withLocals with
  | cutOff p text hscan =>
      rw [learned_of_scan_eq_none hscan, read_of_scan_eq_none hscan]
      exact .refl p.nesting
  | leave p text statement rest q hscan hmove =>
      have hbefore := learns_move withLocals p statement rest
      rw [hmove] at hbefore
      rw [learned_of_scan hscan, read_of_scan_of_move hscan, hmove]
      exact hbefore
  | goOn p text statement rest q next hscan hmove ih =>
      have hbefore := learns_move withLocals p statement rest
      rw [hmove] at hbefore
      rw [learned_of_scan hscan, read_of_scan_of_move hscan, hmove]
      exact hbefore.trans ih
  | enter p text statement rest q owner body hscan hmove ihbody ihrest =>
      have hbefore := learns_move withLocals p statement rest
      rw [hmove] at hbefore
      rw [learned_of_scan hscan, read_of_scan_of_move hscan, hmove]
      refine hbefore.trans (Learns.trans ?_ ihrest)
      cases owner with
      | type header => exact learns_closeType withLocals q header rest body
      | method method => exact learns_closeMethod method ihbody

/-- A body that is left leaves what it learned. -/
theorem learns_closeBody (withLocals : Bool) (q : Progress) (owner : Owner)
    (rest body : List Char) : Learns (q.learnedIn withLocals body rest owner) q.nesting
      (((q.openBody rest owner).read withLocals body).closeBody owner).nesting := by
  cases owner with
  | type header => exact learns_closeType withLocals q header rest body
  | method method =>
      exact learns_closeMethod method (learns_read withLocals (q.openMethod rest) body)

/-- Whatever the body of a method holds, after it reading stands where it
stood, the innermost type knows what was learned in the body, and the method
is declared with its variables. -/
theorem closeMethod_read (withLocals : Bool) (q : Progress) (method : Method)
    (resume body : List Char) : ∃ records locals,
      ((q.openMethod resume).read withLocals body).records = q.records ++ records ∧
      ((q.openMethod resume).read withLocals body).closeMethod method =
        (⟨q.nesting.mapEnclosing fun t => t.learn ((q.openMethod resume).learned withLocals body),
          q.records ++ records⟩ : Progress).declare (.method { method with locals }) := by
  obtain ⟨frame, hpush, _⟩ :=
    Learns.of_push_method (learns_read withLocals (q.openMethod resume) body)
  obtain ⟨records, hrecords⟩ := (keeps_read withLocals (q.openMethod resume) body).records
  refine ⟨records, frame.record.fieldVariables, hrecords.symm, ?_⟩
  rw [closeMethod_of_push hpush, ← hrecords]
  rfl

/-- Whether all bodies that are open are as they were, with all their members, but
that the innermost type has learned names. -/
def KeepsMembers (p q : Progress) : Prop :=
  ∃ entries, q.nesting = p.nesting.mapEnclosing fun record => record.learn entries

theorem KeepsMembers.refl (p : Progress) : p.KeepsMembers p :=
  ⟨[], by simp [Nesting.mapEnclosing, Nesting.mapEnclosingOf_id]⟩

/-- In the body of a method all members that were there are kept. -/
theorem exists_push_openMethod (withLocals : Bool) (p : Progress) (resume body : List Char) :
    let q := (p.openMethod resume).read withLocals body
    ∃ n frame, q.nesting = n.push frame ∧ p.Keeps ⟨n, q.records⟩ ∧ p.KeepsMembers ⟨n, q.records⟩ := by
  intro q
  obtain ⟨frame, hpush, _⟩ :=
    Learns.of_push_method (learns_read withLocals (p.openMethod resume) body)
  have hrecords := (keeps_read withLocals (p.openMethod resume) body).records
  exact ⟨_, frame, hpush, ⟨.mapEnclosingOf _ _, fun _ => rfl, hrecords⟩, _, rfl⟩

/-- The full name of a type that is entered. -/
def typeName (q : Progress) (header : TypeHeader) : String :=
  (TypeRecord.start (qualify q.nesting.scope.path header.name) header.kind).fullName

/-- A type keeps its name while its body is read. -/
theorem exists_record_of_openType (withLocals : Bool) (q : Progress) (header : TypeHeader)
    (rest body : List Char) : ∃ record,
      ((q.openType header rest).read withLocals body).nesting.record? = some record ∧
        record.fullName = q.typeName header := by
  obtain ⟨frame, hpush, hsame⟩ :=
    Learns.of_push_type (learns_read withLocals (q.openType header rest) body)
  refine ⟨frame.record, by rw [hpush, Nesting.record?_push], ?_⟩
  have hname := hsame.fullName_eq
  simp only [TypeRecord.fullName_learn] at hname
  rw [hname]
  cases houter : (q.nesting.mapEnclosing fun outer => outer.addImport header.name
    (qualify q.nesting.scope.path header.name)).enclosing? <;> rfl

/-! ## Fields -/

/-- The fields of the innermost body. -/
def fields (p : Progress) : List Member := (p.nesting.record?.map TypeRecord.fields).getD []

/-- A record that changes adds fields at the end, if any. -/
theorem prefix_fields_mapRecord {f : TypeRecord → TypeRecord}
    (hf : ∀ r, r.fields <+: (f r).fields) (p : Progress) : p.fields <+: (p.mapRecord f).fields := by
  obtain ⟨⟨file, frames⟩, records⟩ := p
  cases frames with
  | nil => exact List.prefix_refl _
  | cons frame outer => exact hf frame.record

theorem prefix_fields_declare (p : Progress) (declaration : Declaration) :
    p.fields <+: (p.declare declaration).fields := by
  cases declaration with
  | nothing => exact List.prefix_refl _
  | type header => exact List.prefix_refl _
  | fields members =>
      refine prefix_fields_mapRecord (fun r => ?_) p
      rw [foldl_addField]
      exact List.prefix_append _ _
  | method method =>
      exact prefix_fields_mapRecord (f := fun r => r.addMethod method)
        (fun _ => List.prefix_refl _) p

theorem fields_mapEnclosing {f : TypeRecord → TypeRecord} (hf : ∀ r, (f r).fields = r.fields)
    (n : Nesting (List Char)) (records records' : List TypeRecord) :
    fields ⟨n.mapEnclosing f, records⟩ = fields ⟨n, records'⟩ := by
  obtain ⟨file, frames⟩ := n
  match frames with
  | [] => rfl
  | ⟨.typeBody, _, record, _⟩ :: _ => exact hf record
  | ⟨.methodBody _, _, _, _⟩ :: _ => rfl

/-- A statement adds fields at the end, if any. -/
theorem prefix_fields_move (withLocals : Bool) (p : Progress) (statement : Statement (List Char))
    (rest : List Char) : p.fields <+: (p.move withLocals statement rest).progress.fields := by
  apply move_invariant (I := fun q => p.fields <+: q.fields)
  · intro q clause _ hq
    have happly : (q.apply clause).fields = q.fields := by
      obtain ⟨⟨file, frames⟩, records⟩ := q
      cases clause <;> cases frames <;> rfl
    rwa [happly]
  · exact fun q declaration _ hq => hq.trans (q.prefix_fields_declare declaration)
  · intro q hq
    have henter : fields { q with nesting := q.nesting.enterBlock } = q.fields := by
      obtain ⟨⟨file, frames⟩, records⟩ := q
      match frames with
      | [] => rfl
      | ⟨.typeBody, _, _, _⟩ :: _ => rfl
      | ⟨.methodBody _, _, _, _⟩ :: _ => rfl
    rwa [henter]
  · intro q n hleave hq
    have hkept : fields { q with nesting := n } = q.fields := by
      obtain ⟨⟨file, frames⟩, records⟩ := q
      unfold Nesting.leaveBlock? at hleave
      split at hleave
      · next heq =>
          cases hleave
          simp only at heq
          subst heq
          rfl
      · cases hleave
    rwa [hkept]
  · exact List.prefix_refl _

/-- A body that is left adds no fields to the body around. -/
theorem prefix_fields_closeBody (withLocals : Bool) (q : Progress) (owner : Owner)
    (rest body : List Char) :
    q.fields <+: (((q.openBody rest owner).read withLocals body).closeBody owner).fields := by
  have hlearn : ∀ (entries : List (String × String)) (r : TypeRecord),
      (r.learn entries).fields = r.fields := by
    intro entries r
    obtain ⟨imports, hlearn⟩ := r.exists_learn_eq entries
    rw [hlearn]
  cases owner with
  | type header =>
      obtain ⟨records, hclosed⟩ := closeType_read withLocals q header rest body
      simp only [openBody, closeBody, hclosed]
      rw [fields_mapEnclosing (f := fun outer =>
        outer.addImport header.name (qualify q.nesting.scope.path header.name))
          (fun _ => rfl) q.nesting _ q.records]
  | method method =>
      obtain ⟨records, locals, _, hclosed⟩ := closeMethod_read withLocals q method rest body
      simp only [openBody, closeBody, hclosed]
      refine List.IsPrefix.trans ?_ (prefix_fields_declare _ _)
      rw [fields_mapEnclosing (f := fun t =>
        t.learn ((q.openMethod rest).learned withLocals body)) (hlearn _) q.nesting _ q.records]

/-- Whatever text is read, the innermost body keeps its fields, and others
come after them. -/
theorem prefix_fields_read (withLocals : Bool) (p : Progress) (text : List Char) :
    p.fields <+: (p.read withLocals text).fields := by
  induction p, text using read_induction withLocals with
  | cutOff p text hscan =>
      rw [read_of_scan_eq_none hscan]
  | leave p text statement rest q hscan hmove =>
      have hbefore := prefix_fields_move withLocals p statement rest
      rw [hmove] at hbefore
      rw [read_of_scan_of_move hscan, hmove]
      exact hbefore
  | goOn p text statement rest q next hscan hmove ih =>
      have hbefore := prefix_fields_move withLocals p statement rest
      rw [hmove] at hbefore
      rw [read_of_scan_of_move hscan, hmove]
      exact hbefore.trans ih
  | enter p text statement rest q owner body hscan hmove _ ihrest =>
      have hbefore := prefix_fields_move withLocals p statement rest
      rw [hmove] at hbefore
      rw [read_of_scan_of_move hscan, hmove]
      exact hbefore.trans ((prefix_fields_closeBody withLocals q owner rest body).trans ihrest)

end

end Progress

end JavaOutline
