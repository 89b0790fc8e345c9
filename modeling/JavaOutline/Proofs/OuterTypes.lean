import JavaOutline.Proofs.Sessions
import JavaOutline.Proofs.WithoutLocals
import JavaOutline.Resolution

/-!
# JavaOutline.Proofs.OuterTypes

The type around a nested type is found.

A record tells of the type around it twice: its path is the full name of that
type, and its outer name is the simple name.  The first comes from the scope in
which the type was entered and the second from the record of the innermost type,
and these two agree as long as no `package` clause gives a body another path
(`Nesting.Aligned`).

The record of a type is complete later than those of the types inside, and a
registry may refuse it.  So reading is followed along its moves, and what it adds
is linked: the type around each record is another of the records that are added,
or the innermost type where reading began (`Progress.links_read`).
`Registry.readText_finds_outer` says what this means for a registry.
-/

namespace JavaOutline

/-! ## Simple names -/

namespace TypeRecord

/-- The name of a record is not empty and has no dot. -/
def HasSimpleName (t : TypeRecord) : Prop := t.name ≠ "" ∧ '.' ∉ t.name.toList

variable {t u : TypeRecord}

theorem HasSimpleName.splitFullName_eq (h : t.HasSimpleName) :
    splitFullName t.fullName = (t.packagePath, t.name) :=
  splitFullName_qualify h.2

/-- A full name tells the path in front of the simple name, and the simple name. -/
theorem HasSimpleName.names_eq (ht : t.HasSimpleName) (hu : u.HasSimpleName)
    (h : t.fullName = u.fullName) : t.packagePath = u.packagePath ∧ t.name = u.name := by
  have hsplit := ht.splitFullName_eq
  rw [h, hu.splitFullName_eq] at hsplit
  exact ⟨(congrArg Prod.fst hsplit).symm, (congrArg Prod.snd hsplit).symm⟩

theorem HasSimpleName.fullName_ne_empty (h : t.HasSimpleName) : t.fullName ≠ "" := by
  intro hempty
  have hsplit := h.splitFullName_eq
  rw [hempty] at hsplit
  exact h.1 (congrArg Prod.snd hsplit).symm

end TypeRecord

theorem TypeHeader.name_ne_empty {kind : TypeKind} {tokens : List String} {header : TypeHeader}
    (h : TypeHeader.ofTokens? kind tokens = some header) : header.name ≠ "" := by
  cases tokens with
  | nil => cases h
  | cons declared rest =>
      rw [ofTokens?] at h
      split at h
      · cases h
      · next hname =>
          cases h
          simpa using hname

namespace Reading

theorem member_ne_type (level : Level) (m : Modifiers) (alone : Bool) (tokens : List String)
    (header : TypeHeader) : member level m alone tokens ≠ .type header := by
  have hdeclare : m.declare tokens ≠ .type header := by
    fun_cases Modifiers.declare m tokens <;> simp
  unfold member
  split
  · split <;> simp
  · split
    · split <;> simp
    · exact hdeclare

/-- A type that is declared has the header that some of the tokens make. -/
theorem exists_ofTokens?_eq {level : Level} {m : Modifiers} {first : Bool}
    {tokens : List String} {header : TypeHeader}
    (h : (ofTokensAfter level m first tokens).declaration = .type header) :
    ∃ kind rest, TypeHeader.ofTokens? kind rest = some header := by
  fun_induction ofTokensAfter level m first tokens with
  | case1 => cases h
  | case2 _ _ _ _ _ _ ih => exact ih h
  | case3 _ _ _ _ ih => exact ih h
  | case4 _ _ _ _ _ ih => exact ih h
  | case5 _ _ _ _ _ _ ih => exact ih h
  | case6 _ _ _ _ _ _ _ ih => exact ih h
  | case7 _ _ _ rest _ _ _ _ _ kind =>
      refine ⟨kind, rest, ?_⟩
      cases hheader : TypeHeader.ofTokens? kind rest with
      | none => simp [hheader, declaring] at h
      | some header' => simpa [hheader, declaring] using h
  | case8 => cases h
  | case9 => rename_i ih; exact ih h
  | case10 => rename_i ih; exact ih h
  | case11 => rename_i ih; exact ih h
  | case12 => exact absurd h (member_ne_type _ _ _ _ _)

end Reading

/-! ## The innermost type -/

/-- The innermost type, of which only the name is seen. -/
def Nesting.around? {place : Type} (n : Nesting place) : Option TypeRecord :=
  n.enclosing?.map TypeRecord.heading

/-- Learning names does not change the innermost type. -/
theorem Learns.around?_eq {place : Type} {entries : List (String × String)} {a b : Nesting place}
    (h : Learns entries a b) : b.around? = a.around? := by
  cases h with
  | file => rfl
  | type h =>
      exact congrArg some (h.heading_eq.trans (TypeRecord.heading_learn _ entries))
  | @method file _ _ _ _ _ _ _ outer _ _ houter =>
      have hlearned : (Nesting.mapEnclosing (fun t => t.learn entries) ⟨file, outer⟩).around? =
          Nesting.around? ⟨file, outer⟩ := by
        simp [Nesting.around?, Function.comp_def, TypeRecord.heading_learn]
      rw [houter]
      exact hlearned

namespace Nesting

variable {place : Type} {n : Nesting place}

/-- There is no type around the statements of a file. -/
theorem around?_of_level_eq_file (h : n.level = .file) : n.around? = none := by
  obtain ⟨file, frames⟩ := n
  match frames with
  | [] => rfl
  | ⟨.typeBody, _, _, _⟩ :: _ => cases h
  | ⟨.methodBody _, _, _, _⟩ :: _ => cases h

/-- The path is the full name of the innermost type, if there is one. -/
def Aligned (n : Nesting place) : Prop :=
  ∀ outer, n.around? = some outer → outer.fullName = n.scope.path

theorem Aligned.congr {m : Nesting place} (h : n.Aligned) (haround : m.around? = n.around?)
    (hpath : m.scope.path = n.scope.path) : m.Aligned := by
  intro outer houter
  rw [hpath]
  exact h outer (haround.symm.trans houter)

/-- The path and the name of a type that is entered. -/
theorem names_typeFrame (n : Nesting place) {header : TypeHeader} (resume : place)
    (hname : '.' ∉ header.name.toList) :
    (n.typeFrame header resume).record.packagePath = n.scope.path ∧
      (n.typeFrame header resume).record.name = header.name := by
  have hsplit : splitFullName (qualify n.scope.path header.name) = (n.scope.path, header.name) :=
    splitFullName_qualify hname
  constructor
  · refine Eq.trans ?_ (congrArg Prod.fst hsplit)
    simp only [typeFrame]
    split <;> rfl
  · refine Eq.trans ?_ (congrArg Prod.snd hsplit)
    simp only [typeFrame]
    split <;> rfl

/-- The outer name of a type that is entered is the name of the innermost
type. -/
theorem outerName_typeFrame (n : Nesting place) (header : TypeHeader) (resume : place) :
    (n.typeFrame header resume).record.outerName = n.around?.map TypeRecord.name := by
  simp only [typeFrame, around?, enclosing?_mapEnclosing]
  cases n.enclosing? <;> rfl

end Nesting

/-! ## Linked records -/

/-- The type around each record is known: it is another of the records, or the
type around all of them. -/
structure Linked (around : Option TypeRecord) (records : List TypeRecord) : Prop where
  simple : ∀ t ∈ records, t.HasSimpleName
  outer : ∀ t ∈ records, ∀ o, t.outerName = some o →
    ∃ u ∈ around.toList ++ records, u.fullName = t.packagePath ∧ u.name = o

namespace Linked

variable {around : Option TypeRecord} {records more : List TypeRecord}

theorem nil (around : Option TypeRecord) : Linked around [] := ⟨by simp, by simp⟩

theorem append (h : Linked around records) (h' : Linked around more) :
    Linked around (records ++ more) where
  simple t ht := (List.mem_append.1 ht).elim (h.simple t) (h'.simple t)
  outer t ht o ho := by
    rcases List.mem_append.1 ht with ht | ht
    · obtain ⟨u, hu, hnames⟩ := h.outer t ht o ho
      have hmore := (List.sublist_append_left records more).append_left around.toList
      exact ⟨u, hmore.subset hu, hnames⟩
    · obtain ⟨u, hu, hnames⟩ := h'.outer t ht o ho
      have hmore := (List.sublist_append_right records more).append_left around.toList
      exact ⟨u, hmore.subset hu, hnames⟩

/-- Records in the body of a type are linked with the type when it is left. -/
theorem leave {t : TypeRecord} (h : Linked (some t.heading) records) (ht : t.HasSimpleName)
    (hpath : ∀ outer, around = some outer → outer.fullName = t.packagePath)
    (houter : t.outerName = around.map TypeRecord.name) : Linked around (records ++ [t]) where
  simple := by
    simpa [or_imp, forall_and] using And.intro h.simple ht
  outer t' ht' o ho := by
    rcases List.mem_append.1 ht' with hinside | hlast
    · obtain ⟨u, hu, hfull, hname⟩ := h.outer t' hinside o ho
      rcases List.mem_cons.1 hu with rfl | hu
      · exact ⟨t, by simp, hfull, hname⟩
      · have hadded : u ∈ records := hu
        exact ⟨u, by simp [hadded], hfull, hname⟩
    · rw [List.mem_singleton.1 hlast] at ho ⊢
      rw [houter, Option.map_eq_some_iff] at ho
      obtain ⟨outer, hsome, hname⟩ := ho
      exact ⟨outer, by simp [hsome], hpath outer hsome, hname⟩

end Linked

/-! ## Plain statements -/

/-- Whether a clause names a package. -/
def Clause.isPackage : Clause → Bool
  | .package _ => true
  | .importOf _ => false

namespace Progress

/-- What a statement says where it stands. -/
def Visit.reading (v : Visit) : Reading :=
  .ofTokens v.progress.nesting.level v.statement.tokens

/-- The header of the type whose body a statement enters. -/
def Visit.header? (withLocals : Bool) (v : Visit) : Option TypeHeader :=
  match v.move withLocals with
  | .enter _ (.type header) _ _ => some header
  | _ => none

/-- A statement that gives no body a package, and enters no type with a dot in
its name. -/
structure Visit.Plain (withLocals : Bool) (v : Visit) : Prop where
  package : v.progress.nesting.level ≠ .file →
    ∀ clause ∈ v.reading.clauses, clause.isPackage = false
  name : ∀ header ∈ v.header? withLocals, '.' ∉ header.name.toList

instance (withLocals : Bool) (v : Visit) : Decidable (v.Plain withLocals) :=
  decidable_of_iff ((v.progress.nesting.level ≠ .file →
      ∀ clause ∈ v.reading.clauses, clause.isPackage = false) ∧
      ∀ header ∈ v.header? withLocals, '.' ∉ header.name.toList)
    ⟨fun h => ⟨h.1, h.2⟩, fun h => ⟨h.package, h.name⟩⟩

section

variable {withLocals : Bool} {p q : Progress} {text rest body after : List Char}
  {statement : Statement (List Char)} {header : TypeHeader}

theorem name_ne_empty_of_enter
    (h : p.move withLocals statement rest = .enter q (.type header) body after) :
    header.name ≠ "" := by
  have hdeclared := ownerOf?_eq_some_type_iff.1 (ownerOf?_of_enter h)
  obtain ⟨_, _, hheader⟩ := Reading.exists_ofTokens?_eq hdeclared
  exact TypeHeader.name_ne_empty hheader

/-! ## Paths -/

@[simp] theorem path_importType (full : String) (scope : Scope) :
    (importType full scope).path = scope.path := by
  rw [importType]
  split
  · rfl
  · split <;> rfl

theorem scope_declare (q : Progress) (declaration : Declaration) :
    (q.declare declaration).nesting.scope = q.nesting.scope := by
  cases declaration with
  | nothing => rfl
  | type header => rfl
  | fields members => rw [declare, mapRecord, Nesting.scope_mapRecord]
  | method method => rw [declare, mapRecord, Nesting.scope_mapRecord]

/-- Only clauses change a scope. -/
theorem scope_move (withLocals : Bool) (p : Progress) (statement : Statement (List Char))
    (rest : List Char) :
    (p.move withLocals statement rest).progress.nesting.scope =
      ((Reading.ofTokens p.nesting.level statement.tokens).clauses.foldl apply p).nesting.scope := by
  dsimp only [move, moveAfter]
  split
  · split
    · rfl
    · split
      · exact (Nesting.scope_enterBlock _).trans (scope_declare _ _)
      · exact scope_declare _ _
  · split
    · next hleave => exact (Nesting.scope_of_leaveBlock? hleave).trans (scope_declare _ _)
    · exact scope_declare _ _
  · exact scope_declare _ _

/-- Only a `package` clause changes a path. -/
theorem path_move
    (h : ∀ clause ∈ (Reading.ofTokens p.nesting.level statement.tokens).clauses,
      clause.isPackage = false) :
    (p.move withLocals statement rest).progress.nesting.scope.path = p.nesting.scope.path := by
  have hclauses : ∀ (clauses : List Clause) (q : Progress),
      (∀ clause ∈ clauses, clause.isPackage = false) →
      (clauses.foldl apply q).nesting.scope.path = q.nesting.scope.path := by
    intro clauses
    induction clauses with
    | nil => exact fun _ _ => rfl
    | cons clause clauses ih =>
        intro q hplain
        obtain ⟨hclause, hclauses⟩ := List.forall_mem_cons.1 hplain
        rw [List.foldl_cons, ih _ hclauses]
        cases clause with
        | package path => cases hclause
        | importOf full => rw [apply, mapScope, Nesting.scope_mapScope, path_importType]
  rw [scope_move, hclauses _ p h]

theorem aligned_start : start.nesting.Aligned := by
  intro outer houter
  cases houter

theorem aligned_move (h : p.nesting.Aligned)
    (hplain : Visit.Plain withLocals ⟨p, text, statement, rest⟩) :
    (p.move withLocals statement rest).progress.nesting.Aligned := by
  have haround := (learns_move withLocals p statement rest).around?_eq
  by_cases hfile : p.nesting.level = .file
  · intro outer houter
    rw [haround, Nesting.around?_of_level_eq_file hfile] at houter
    cases houter
  · exact h.congr haround (path_move (hplain.package hfile))

theorem around?_openType (q : Progress) (header : TypeHeader) (resume : List Char) :
    (q.openType header resume).nesting.around? =
      some (q.nesting.typeFrame header resume).record.heading := rfl

/-- The path inside of a type is its full name. -/
theorem aligned_openType (q : Progress) (resume : List Char) (hname : '.' ∉ header.name.toList) :
    (q.openType header resume).nesting.Aligned := by
  intro outer houter
  obtain ⟨hpath, hown⟩ := q.nesting.names_typeFrame resume hname
  cases houter
  show qualify (q.nesting.typeFrame header resume).record.packagePath
    (q.nesting.typeFrame header resume).record.name = qualify q.nesting.scope.path header.name
  rw [hpath, hown]

theorem scope_closeBody (withLocals : Bool) (q : Progress) (owner : Owner)
    (rest body : List Char) :
    (((q.openBody rest owner).read withLocals body).closeBody owner).nesting.scope =
      q.nesting.scope := by
  cases owner with
  | type header =>
      obtain ⟨records, hclosed⟩ := closeType_read withLocals q header rest body
      rw [openBody, closeBody, hclosed, Nesting.scope_mapEnclosing]
  | method method =>
      obtain ⟨records, locals, _, hclosed⟩ := closeMethod_read withLocals q method rest body
      rw [openBody, closeBody, hclosed, declare, mapRecord, Nesting.scope_mapRecord,
        Nesting.scope_mapEnclosing]

theorem around?_closeBody (withLocals : Bool) (q : Progress) (owner : Owner)
    (rest body : List Char) :
    (((q.openBody rest owner).read withLocals body).closeBody owner).nesting.around? =
      q.nesting.around? :=
  (learns_closeBody withLocals q owner rest body).around?_eq

/-- The innermost type stays the same, and records are added that are linked
with each other and with it. -/
structure Links (p q : Progress) : Prop where
  around : q.nesting.around? = p.nesting.around?
  records : ∃ added, q.records = p.records ++ added ∧ Linked p.nesting.around? added

theorem Links.refl (p : Progress) : p.Links p := ⟨rfl, [], (List.append_nil _).symm, .nil _⟩

theorem Links.trans {r : Progress} (h : p.Links q) (h' : q.Links r) : p.Links r := by
  obtain ⟨haround, added, hadded, hlinked⟩ := h
  obtain ⟨haround', more, hmore, hlinked'⟩ := h'
  rw [haround] at hlinked'
  exact ⟨haround'.trans haround, added ++ more, by rw [hmore, hadded, List.append_assoc],
    hlinked.append hlinked'⟩

/-- A type that is left has the path that it was entered in, its own name, and
the name of the type around it. -/
theorem exists_record_of_closeType (withLocals : Bool) (q : Progress) (rest body : List Char)
    (hname : '.' ∉ header.name.toList) : ∃ t,
      ((q.openType header rest).read withLocals body).closeType.records =
        ((q.openType header rest).read withLocals body).records ++ [t] ∧
      ((q.openType header rest).nesting.around? = some t.heading) ∧
      t.packagePath = q.nesting.scope.path ∧ t.name = header.name ∧
      t.outerName = q.nesting.around?.map TypeRecord.name := by
  obtain ⟨frame, hpush, hsame⟩ :=
    Learns.of_push_type (learns_read withLocals (q.openType header rest) body)
  have hrecord : ((q.openType header rest).read withLocals body).nesting.record? =
      some frame.record := by rw [hpush, Nesting.record?_push]
  have hheading : frame.record.heading = (q.nesting.typeFrame header rest).record.heading :=
    hsame.heading_eq.trans (TypeRecord.heading_learn _ _)
  have houter : frame.record.outerName = (q.nesting.typeFrame header rest).record.outerName :=
    hsame.outerName_eq.trans (TypeRecord.outerName_learn _ _)
  obtain ⟨hpath, hown⟩ := q.nesting.names_typeFrame rest hname
  refine ⟨frame.record, records_closeType hrecord, ?_, ?_, ?_, ?_⟩
  · rw [around?_openType, hheading]
  · exact (congrArg TypeRecord.packagePath hheading).trans hpath
  · exact (congrArg TypeRecord.name hheading).trans hown
  · exact houter.trans (q.nesting.outerName_typeFrame header rest)

theorem records_closeMethod (withLocals : Bool) (q : Progress) (method : Method)
    (rest body : List Char) :
    (((q.openMethod rest).read withLocals body).closeMethod method).records =
      ((q.openMethod rest).read withLocals body).records := by
  obtain ⟨records, locals, hinside, hclosed⟩ := closeMethod_read withLocals q method rest body
  rw [hclosed, hinside]
  rfl

/-- A type that is left links what its body added, and is linked itself. -/
theorem Links.closeType (haligned : q.nesting.Aligned) (hnonempty : header.name ≠ "")
    (hname : '.' ∉ header.name.toList)
    (h : (q.openType header rest).Links ((q.openType header rest).read withLocals body)) :
    q.Links ((q.openType header rest).read withLocals body).closeType := by
  obtain ⟨added, hadded, hlinked⟩ := h.records
  obtain ⟨t, hclosed, haround, hpath, hown, houter⟩ :=
    exists_record_of_closeType withLocals q rest body hname
  refine ⟨around?_closeBody withLocals q (.type header) rest body, added ++ [t], ?_, ?_⟩
  · rw [hclosed, hadded, List.append_assoc]
    rfl
  · rw [haround] at hlinked
    have hsimple : t.HasSimpleName := ⟨hown ▸ hnonempty, hown ▸ hname⟩
    exact hlinked.leave hsimple (fun outer hsome => (haligned outer hsome).trans hpath.symm) houter

/-- A method that is left has linked what its body added. -/
theorem Links.closeMethod (method : Method)
    (h : (q.openMethod rest).Links ((q.openMethod rest).read withLocals body)) :
    q.Links (((q.openMethod rest).read withLocals body).closeMethod method) where
  around := around?_closeBody withLocals q (.method method) rest body
  records := by
    rw [records_closeMethod]
    exact h.records

end

end Progress

namespace Registry

/-- With a `package` clause in a body the type around is not found. -/
example :
    let r := (empty.readText true "class A \x7b package p ; class B \x7b \x7d \x7d").1
    r.names = ["p.B", "A"] ∧ r.toList.map TypeRecord.outerName = [some "A", none] ∧
      r.toList.map r.outer? = [none, none] := by
  decide +kernel

end Registry

end JavaOutline
