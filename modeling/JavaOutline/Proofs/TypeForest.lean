import JavaOutline.Proofs.OuterTypes

/-!
# JavaOutline.Proofs.TypeForest

The types of a text as a forest.

`Progress.types` keeps, of everything that is read, the types that are entered:
each with the record with which its body is entered, the record with which it is
left, and the types that are entered directly in its body or in a method of it.
Its records are those that reading adds, in their order (`Progress.records_types`).

What the records know is said by `TypeForest.Nested`.  A type starts with what the
type around it knows by then and its own name; from then on it learns the name of
each type that is entered directly in it, and nothing else.  Reading comes to such a
forest where clauses stand at file level only (`Progress.nested_types`).
-/

namespace JavaOutline

/-! ## Forests -/

/-- Types one after the other.  `start` is the record with which the body of a type is
entered, `record` the one with which it is left, and `inner` are the types in it. -/
inductive TypeForest where
  | nil
  | cons (start record : TypeRecord) (inner rest : TypeForest)

/-- A type of a forest. -/
structure TypeNode where
  start : TypeRecord
  record : TypeRecord
  inner : TypeForest

/-- The name of a type, with what it means. -/
def TypeNode.entry (n : TypeNode) : String × String := (n.start.name, n.start.fullName)

namespace TypeForest

/-- The types of a forest and then those of another. -/
def append : TypeForest → TypeForest → TypeForest
  | nil, more => more
  | cons start record inner rest, more => cons start record inner (rest.append more)

/-- All types of a forest, in the order in which their bodies end. -/
def nodes : TypeForest → List TypeNode
  | nil => []
  | cons start record inner rest => inner.nodes ++ ⟨start, record, inner⟩ :: rest.nodes

/-- The types of a forest that are in no other, in order. -/
def direct : TypeForest → List TypeNode
  | nil => []
  | cons start record inner rest => ⟨start, record, inner⟩ :: rest.direct

/-- The records of all types, in the order in which their bodies end. -/
def records (f : TypeForest) : List TypeRecord := f.nodes.map TypeNode.record

/-- The names of the types that are in no other, each with what it means. -/
def entries (f : TypeForest) : List (String × String) := f.direct.map TypeNode.entry

variable (start record : TypeRecord) (inner rest f g : TypeForest)

@[simp] theorem records_nil : records nil = [] := rfl

@[simp] theorem records_cons :
    (cons start record inner rest).records = inner.records ++ record :: rest.records := by
  simp [records, nodes]

@[simp] theorem records_append : (f.append g).records = f.records ++ g.records := by
  induction f with
  | nil => rfl
  | cons start record inner rest _ ih => simp [append, ih]

@[simp] theorem entries_nil : entries nil = [] := rfl

@[simp] theorem entries_cons :
    (cons start record inner rest).entries = (start.name, start.fullName) :: rest.entries := rfl

@[simp] theorem entries_append : (f.append g).entries = f.entries ++ g.entries := by
  induction f with
  | nil => rfl
  | cons start record inner rest _ ih => simp [append, ih]

end TypeForest

/-! ## What records know -/

namespace TypeRecord

/-- A record without its members. -/
def bare (t : TypeRecord) : TypeRecord := { t with fields := [], methods := [] }

theorem SameButMembers.bare_eq {t t' : TypeRecord} (h : t.SameButMembers t') :
    t'.bare = t.bare := by
  obtain ⟨_, _, rfl⟩ := h
  rfl

theorem bare_learn (t : TypeRecord) (entries : List (String × String)) :
    (t.learn entries).bare = t.bare.learn entries := by
  induction entries generalizing t with
  | nil => rfl
  | cons entry entries ih => exact ih _

end TypeRecord

/-- What the records of nested types know, `outer` being the type around them. -/
inductive TypeForest.Nested : Option TypeRecord → TypeForest → Prop
  | nil (outer : Option TypeRecord) : Nested outer .nil
  | cons {outer : Option TypeRecord} {start record : TypeRecord} {inner rest : TypeForest}
      (simple : start.HasSimpleName)
      (outerName : start.outerName = outer.map TypeRecord.name)
      (knows : ∀ t ∈ outer, start.packagePath = t.fullName ∧
        start.imports = t.imports.insert start.name start.fullName)
      (complete : record.bare = start.learn inner.entries)
      (inside : Nested (some start) inner)
      (after : Nested (outer.map fun t => t.learn [(start.name, start.fullName)]) rest) :
      Nested outer (.cons start record inner rest)

/-- Types that come later know those before. -/
theorem TypeForest.Nested.append {outer : Option TypeRecord} {f g : TypeForest}
    (hf : Nested outer f) (hg : Nested (outer.map fun t => t.learn f.entries) g) :
    Nested outer (f.append g) := by
  induction hf with
  | nil outer =>
      cases outer <;> exact hg
  | cons simple outerName knows complete inside after _ ih =>
      refine .cons simple outerName knows complete inside (ih ?_)
      rw [Option.map_map]
      exact hg

namespace Nesting

variable {place : Type} {n : Nesting place}

/-- The innermost type, without its members. -/
def innermost? (n : Nesting place) : Option TypeRecord := n.enclosing?.map TypeRecord.bare

theorem around?_eq_innermost? (n : Nesting place) :
    n.around? = n.innermost?.map TypeRecord.heading := by
  rw [around?, innermost?, Option.map_map]
  rfl

/-- The path is the full name of the innermost type, and the scope knows no more
than the type does. -/
structure Settled (n : Nesting place) : Prop where
  aligned : n.Aligned
  known : ∀ t ∈ n.innermost?, ∀ short, t.imports.get? short = none →
    n.scope.imports.get? short = none

/-- A type that is entered has no members. -/
theorem bare_typeFrame (n : Nesting place) (header : TypeHeader) (resume : place) :
    (n.typeFrame header resume).record.bare = (n.typeFrame header resume).record := by
  simp only [typeFrame]
  split <;> rfl

theorem fullName_typeFrame (n : Nesting place) {header : TypeHeader} (resume : place)
    (hname : '.' ∉ header.name.toList) :
    (n.typeFrame header resume).record.fullName = qualify n.scope.path header.name := by
  obtain ⟨hpath, hown⟩ := n.names_typeFrame resume hname
  rw [TypeRecord.fullName, hpath, hown]

/-- What a type that is entered knows: what the innermost type knows, or else the
scope, and itself. -/
theorem get?_typeFrame (n : Nesting place) (header : TypeHeader) (resume : place)
    (short : String) :
    (n.typeFrame header resume).record.imports.get? short =
      (n.innermost?.bind fun t =>
        (t.imports.insert header.name (qualify n.scope.path header.name)).get? short).or
        ((n.typeFrame header resume).scope.imports.get? short) := by
  rw [innermost?, typeFrame, enclosing?_mapEnclosing]
  cases n.enclosing? with
  | none => simp [TypeRecord.addImports, TypeRecord.start]
  | some outer =>
      simp [TypeRecord.addImports, TypeRecord.addImport, TypeRecord.withOuter, TypeRecord.start,
        TypeRecord.bare, ImportTable.get?_overlay]

/-- Where the scope knows no more than the innermost type, a type that is entered knows
what that type knows, and itself. -/
theorem Settled.imports_typeFrame (h : n.Settled) (header : TypeHeader) (resume : place)
    {t : TypeRecord} (ht : t ∈ n.innermost?) :
    (n.typeFrame header resume).record.imports =
      t.imports.insert header.name (qualify n.scope.path header.name) := by
  apply ImportTable.ext_get?
  intro short
  have hknown := h.known t ht short
  have hscope : (n.typeFrame header resume).scope.imports =
      n.scope.imports.insert header.name (qualify n.scope.path header.name) := rfl
  rw [get?_typeFrame, hscope, Option.mem_def.1 ht]
  simp only [Option.bind_some, ImportTable.get?_insert]
  split
  · rfl
  · cases hget : t.imports.get? short with
    | some full => rfl
    | none => exact hknown hget

end Nesting

/-- The innermost type knows what is learned. -/
theorem Learns.innermost?_eq {place : Type} {entries : List (String × String)}
    {a b : Nesting place} (h : Learns entries a b) :
    b.innermost? = a.innermost?.map fun t => t.learn entries := by
  cases h with
  | file => rfl
  | type h => exact congrArg some (h.bare_eq.trans (TypeRecord.bare_learn _ entries))
  | @method file _ _ _ _ _ _ _ outer _ _ houter =>
      have hlearned : (Nesting.mapEnclosing (fun t => t.learn entries) ⟨file, outer⟩).innermost? =
          (Nesting.innermost? ⟨file, outer⟩).map fun t => t.learn entries := by
        simp [Nesting.innermost?, Function.comp_def, TypeRecord.bare_learn]
      rw [houter]
      exact hlearned

theorem TypeRecord.get?_learn_eq_none {t : TypeRecord} {entries : List (String × String)}
    {short : String} (h : (t.learn entries).imports.get? short = none) :
    t.imports.get? short = none := by
  induction entries generalizing t with
  | nil => exact h
  | cons entry entries ih =>
      have hlearned := ih h
      simp only [addImport, ImportTable.get?_insert] at hlearned
      split at hlearned
      · cases hlearned
      · exact hlearned

/-- Learning names settles nothing anew, as long as the scope stays. -/
theorem Nesting.Settled.learns {place : Type} {entries : List (String × String)}
    {n m : Nesting place} (h : n.Settled) (hlearns : Learns entries n m)
    (hscope : m.scope = n.scope) : m.Settled where
  aligned := h.aligned.congr hlearns.around?_eq (congrArg Scope.path hscope)
  known := by
    intro t ht short hnone
    rw [hlearns.innermost?_eq] at ht
    obtain ⟨outer, houter, rfl⟩ := Option.map_eq_some_iff.1 ht
    rw [hscope]
    exact h.known outer houter short (TypeRecord.get?_learn_eq_none hnone)

namespace Progress

/-! ## Reading -/

/-- What is left of a body that is entered: a type with the types in it, or the types
in a method. -/
def plant (withLocals : Bool) (q : Progress) (body rest : List Char) (inner later : TypeForest) :
    Owner → TypeForest
  | .type header =>
    let start := (q.nesting.typeFrame header rest).record
    .cons start ((((q.openType header rest).read withLocals body).nesting.record?).getD start)
      inner later
  | .method _ => inner.append later

/-- The types that are entered while a text is read. -/
def types (withLocals : Bool) (p : Progress) (text : List Char) : TypeForest :=
  match _ : scan text with
  | none => .nil
  | some (statement, rest) =>
    match _ : p.move withLocals statement rest with
    | .leave _ => .nil
    | .goOn q next => q.types withLocals next
    | .enter q owner body after =>
      q.plant withLocals body after ((q.openBody after owner).types withLocals body)
        ((((q.openBody after owner).read withLocals body).closeBody owner).types withLocals after)
        owner
termination_by text.length
decreasing_by
  · exact length_lt_of_goOn ‹_› ‹_›
  · exact (length_lt_of_enter ‹_› ‹_›).1
  · exact (length_lt_of_enter ‹_› ‹_›).2

/-- The types that are entered after a statement. -/
def Move.types (withLocals : Bool) : Move → TypeForest
  | .leave _ => .nil
  | .goOn q text => q.types withLocals text
  | .enter q owner body rest =>
    q.plant withLocals body rest ((q.openBody rest owner).types withLocals body)
      ((((q.openBody rest owner).read withLocals body).closeBody owner).types withLocals rest) owner

/-- A statement that enters no type with a dot in its name and, in a body, has no
clause. -/
structure Visit.Tidy (withLocals : Bool) (v : Visit) : Prop where
  clauses : v.progress.nesting.level ≠ .file → v.reading.clauses = []
  name : ∀ header ∈ v.header? withLocals, '.' ∉ header.name.toList

instance (withLocals : Bool) (v : Visit) : Decidable (v.Tidy withLocals) :=
  decidable_of_iff ((v.progress.nesting.level ≠ .file → v.reading.clauses = []) ∧
      ∀ header ∈ v.header? withLocals, '.' ∉ header.name.toList)
    ⟨fun h => ⟨h.1, h.2⟩, fun h => ⟨h.clauses, h.name⟩⟩

section

variable {withLocals : Bool} {p q : Progress} {text rest body : List Char}
  {statement : Statement (List Char)} {header : TypeHeader}

theorem types_of_scan_eq_none (h : scan text = none) : p.types withLocals text = .nil := by
  rw [types]
  split
  · rfl
  · next h' => rw [h] at h'; cases h'

theorem types_of_scan (h : scan text = some (statement, rest)) :
    p.types withLocals text = (p.move withLocals statement rest).types withLocals := by
  rw [types]
  split
  · next h' => rw [h] at h'; cases h'
  · next h' =>
      rw [h] at h'
      cases h'
      cases hmove : p.move withLocals statement rest <;> simp [Move.types]

/-- The record with which a type is left. -/
theorem exists_record_read_openType (withLocals : Bool) (q : Progress) (header : TypeHeader)
    (rest body : List Char) : ∃ t,
      ((q.openType header rest).read withLocals body).nesting.record? = some t ∧
        t.bare = (q.nesting.typeFrame header rest).record.learn
          ((q.openType header rest).learned withLocals body) := by
  obtain ⟨frame, hpush, hsame⟩ :=
    Learns.of_push_type (learns_read withLocals (q.openType header rest) body)
  refine ⟨frame.record, by rw [hpush, Nesting.record?_push], ?_⟩
  have hbare := hsame.bare_eq
  rw [TypeRecord.bare_learn] at hbare
  exact hbare.trans (congrArg (TypeRecord.learn · _) (q.nesting.bare_typeFrame header rest))

/-- The records of the types are those that reading adds. -/
theorem records_types (withLocals : Bool) (p : Progress) (text : List Char) :
    (p.read withLocals text).records = p.records ++ (p.types withLocals text).records := by
  induction p, text using read_induction withLocals with
  | cutOff p text hscan =>
      rw [read_of_scan_eq_none hscan, types_of_scan_eq_none hscan]
      simp
  | leave p text statement rest q hscan hmove =>
      have hbefore := records_move withLocals p statement rest
      rw [hmove] at hbefore
      rw [read_of_scan_of_move hscan, types_of_scan hscan, hmove]
      exact hbefore.trans (List.append_nil _).symm
  | goOn p text statement rest q next hscan hmove ih =>
      have hbefore := records_move withLocals p statement rest
      rw [hmove] at hbefore
      rw [read_of_scan_of_move hscan, types_of_scan hscan, hmove]
      exact ih.trans (congrArg (· ++ _) hbefore)
  | enter p text statement rest q owner body hscan hmove ihbody ihrest =>
      have hbefore := records_move withLocals p statement rest
      rw [hmove] at hbefore
      have hq : q.records = p.records := hbefore
      rw [read_of_scan_of_move hscan, types_of_scan hscan, hmove]
      refine ihrest.trans ?_
      cases owner with
      | type header =>
          obtain ⟨t, ht, -⟩ := exists_record_read_openType withLocals q header rest body
          have hinside : ((q.openType header rest).read withLocals body).records =
              q.records ++ ((q.openType header rest).types withLocals body).records := ihbody
          simp only [Move.types, plant, closeBody, openBody, ht, Option.getD_some,
            records_closeType ht, hinside, hq, TypeForest.records_cons, List.append_assoc,
            List.singleton_append]
      | method method =>
          have hinside : ((q.openMethod rest).read withLocals body).records =
              q.records ++ ((q.openMethod rest).types withLocals body).records := ihbody
          simp only [Move.types, plant, closeBody, openBody, records_closeMethod, hinside, hq,
            TypeForest.records_append, List.append_assoc]

/-- The outline of a text is made of the records of its types. -/
theorem outline_eq_records (withLocals : Bool) (text : String) :
    outline withLocals text = (start.types withLocals text.toList).records :=
  records_types withLocals start text.toList

/-! ## Tidy statements -/

theorem Visit.Tidy.plain {v : Visit} (h : v.Tidy withLocals) : v.Plain withLocals where
  package hlevel clause hclause := by
    rw [h.clauses hlevel] at hclause
    cases hclause
  name := h.name

theorem settled_start : start.nesting.Settled := ⟨aligned_start, by rintro _ ⟨⟩⟩

theorem settled_move (h : p.nesting.Settled)
    (htidy : Visit.Tidy withLocals ⟨p, text, statement, rest⟩) :
    (p.move withLocals statement rest).progress.nesting.Settled := by
  have hlearns := learns_move withLocals p statement rest
  by_cases hfile : p.nesting.level = .file
  · refine ⟨aligned_move h.aligned htidy.plain, fun t ht => ?_⟩
    -- There is no type around the statements of a file.
    have haround := Nesting.around?_of_level_eq_file hfile
    rw [← hlearns.around?_eq, Nesting.around?_eq_innermost?, Option.mem_def.1 ht] at haround
    cases haround
  · have hnone : (Reading.ofTokens p.nesting.level statement.tokens).clauses = [] :=
      htidy.clauses hfile
    exact h.learns hlearns (by rw [scope_move, hnone]; rfl)

theorem innermost?_move (withLocals : Bool) (p : Progress) (statement : Statement (List Char))
    (rest : List Char) :
    (p.move withLocals statement rest).progress.nesting.innermost? = p.nesting.innermost? := by
  rw [(learns_move withLocals p statement rest).innermost?_eq]
  simp

theorem innermost?_openType (q : Progress) (header : TypeHeader) (resume : List Char) :
    (q.openType header resume).nesting.innermost? =
      some (q.nesting.typeFrame header resume).record :=
  congrArg some (q.nesting.bare_typeFrame header resume)

/-- A type that is entered knows what its scope knows. -/
theorem settled_openType (q : Progress) (resume : List Char) (hname : '.' ∉ header.name.toList) :
    (q.openType header resume).nesting.Settled where
  aligned := aligned_openType q resume hname
  known := by
    intro t ht short hnone
    rw [innermost?_openType] at ht
    cases ht
    rw [q.nesting.get?_typeFrame, Option.or_eq_none_iff] at hnone
    exact hnone.2

/-- A method knows what the type around it knows. -/
theorem settled_openMethod (h : q.nesting.Settled) (resume : List Char) :
    (q.openMethod resume).nesting.Settled := ⟨h.aligned, h.known⟩

theorem settled_closeBody (h : q.nesting.Settled) (withLocals : Bool) (owner : Owner)
    (rest body : List Char) :
    (((q.openBody rest owner).read withLocals body).closeBody owner).nesting.Settled :=
  h.learns (learns_closeBody withLocals q owner rest body)
    (scope_closeBody withLocals q owner rest body)

/-- A type that is entered is nested in the innermost type, with the types inside. -/
theorem nested_plant_type {later : TypeForest} (h : q.nesting.Settled)
    (hnonempty : header.name ≠ "") (hname : '.' ∉ header.name.toList)
    (hinner : ((q.openType header rest).types withLocals body).Nested
      (q.openType header rest).nesting.innermost?)
    (hentries : ((q.openType header rest).types withLocals body).entries =
      (q.openType header rest).learned withLocals body)
    (hlater : later.Nested (q.nesting.innermost?.map fun t =>
      t.learn [(header.name, qualify q.nesting.scope.path header.name)])) :
    let planted := q.plant withLocals body rest ((q.openType header rest).types withLocals body)
      later (.type header)
    planted.Nested q.nesting.innermost? ∧
      planted.entries = (header.name, qualify q.nesting.scope.path header.name) :: later.entries := by
  obtain ⟨t, ht, hcomplete⟩ := exists_record_read_openType withLocals q header rest body
  obtain ⟨hpath, hown⟩ := q.nesting.names_typeFrame rest hname
  have hfull := q.nesting.fullName_typeFrame rest hname
  simp only [plant, ht, Option.getD_some, TypeForest.entries_cons]
  rw [innermost?_openType] at hinner
  rw [← hfull, ← hown] at hlater
  refine ⟨.cons ⟨hown ▸ hnonempty, hown ▸ hname⟩ ?_ (fun outer houter => ⟨?_, ?_⟩)
    (hentries ▸ hcomplete) hinner hlater, by rw [hown, hfull]⟩
  · rw [q.nesting.outerName_typeFrame, Nesting.around?_eq_innermost?, Option.map_map]
    rfl
  · have haround : q.nesting.around? = some outer.heading := by
      rw [Nesting.around?_eq_innermost?, Option.mem_def.1 houter]
      rfl
    exact hpath.trans (h.aligned outer.heading haround).symm
  · rw [hown, hfull, h.imports_typeFrame header rest houter]

/-- **What nested types know.**  Where the statements are tidy, the types that are
entered know what the types around them know when they are entered, themselves, and
the types that are entered directly in them; and these are learned around them. -/
theorem nested_types (h : p.nesting.Settled)
    (htidy : ∀ v ∈ p.visits withLocals text, v.Tidy withLocals) :
    (p.types withLocals text).Nested p.nesting.innermost? ∧
      (p.types withLocals text).entries = p.learned withLocals text := by
  induction p, text using read_induction withLocals with
  | cutOff p text hscan =>
      rw [types_of_scan_eq_none hscan, learned_of_scan_eq_none hscan]
      exact ⟨.nil _, rfl⟩
  | leave p text statement rest q hscan hmove =>
      rw [types_of_scan hscan, learned_of_scan hscan, hmove]
      exact ⟨.nil _, rfl⟩
  | goOn p text statement rest q next hscan hmove ih =>
      rw [visits_of_scan hscan] at htidy
      have hsame := innermost?_move withLocals p statement rest
      have hsettled := settled_move h (htidy _ List.mem_cons_self)
      rw [hmove] at hsame hsettled htidy
      rw [types_of_scan hscan, learned_of_scan hscan, hmove, ← hsame]
      exact ih hsettled fun v hv => htidy v (List.mem_cons_of_mem _ hv)
  | enter p text statement rest q owner body hscan hmove ihbody ihrest =>
      rw [visits_of_scan hscan] at htidy
      have hthis := htidy _ List.mem_cons_self
      have hsame := innermost?_move withLocals p statement rest
      have hsettled := settled_move h hthis
      rw [hmove] at hsame hsettled htidy
      have hinside : ∀ v ∈ (q.openBody rest owner).visits withLocals body, v.Tidy withLocals :=
        fun v hv => htidy v (List.mem_cons_of_mem _ (List.mem_append_left _ hv))
      obtain ⟨hlater, hlaterEntries⟩ := ihrest (settled_closeBody hsettled withLocals owner rest body)
        fun v hv => htidy v (List.mem_cons_of_mem _ (List.mem_append_right _ hv))
      rw [(learns_closeBody withLocals q owner rest body).innermost?_eq] at hlater
      rw [types_of_scan hscan, learned_of_scan hscan, hmove, ← hsame]
      cases owner with
      | type header =>
          have hname := hthis.name header (by simp [Visit.header?, Visit.move, hmove])
          obtain ⟨hinner, hentries⟩ := ihbody (settled_openType q rest hname) hinside
          obtain ⟨hnested, hplanted⟩ := nested_plant_type hsettled (name_ne_empty_of_enter hmove)
            hname hinner hentries hlater
          exact ⟨hnested, hplanted.trans (congrArg _ hlaterEntries)⟩
      | method method =>
          obtain ⟨hinner, hentries⟩ := ihbody (settled_openMethod hsettled rest) hinside
          refine ⟨TypeForest.Nested.append hinner (hentries ▸ hlater), ?_⟩
          calc (TypeForest.append _ _).entries = _ ++ _ := TypeForest.entries_append _ _
            _ = _ := by rw [hentries, hlaterEntries]; rfl

end

end Progress

end JavaOutline
