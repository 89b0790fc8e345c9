import JavaOutline.Batch.Reader
import JavaOutline.Proofs.Grammar.Statements
import JavaOutline.Proofs.Registering
import JavaOutline.Proofs.Registration

/-!
# JavaOutline.Proofs.Grammar.Units

What is written is read again.  A compilation unit that is laid out as a
text is registered as the records of its types, with those variables whose
names count as identifiers (`CompilationUnit.registers_iff`).

The proof is an induction on the members of a type (`Members.reads`):
reading them up to the brace that ends the body adds them to the record of
the type, and the records of nested types to those that are complete.
-/

namespace JavaOutline

open Text OpenStatement

/-! ## Members -/

/-- The record of a type at `path` with more members. -/
def Members.addTo (withLocals : Bool) (keep : Name → Bool) (path : String) (ms : Members)
    (r : TypeRecord) : TypeRecord :=
  { r with
    fields := r.fields ++ ms.fields keep
    methods := r.methods ++ ms.methods withLocals keep
    imports := ms.table path r.imports }

/-- Reading members up to the brace after them adds them to the innermost
type. -/
def Members.Reads (withLocals : Bool) (ms : Members) : Prop :=
  ∀ (n : Nesting (List Char)) (scope : Scope) (record : TypeRecord) (resume : List Char)
    (records : List TypeRecord) (more : List Lexeme) (text rest : List Char),
    Laid (ms.lexemes ++ .mark '\x7d' :: more) text rest →
      (⟨n.push ⟨.typeBody, scope, record, resume⟩, records⟩ : Progress).read withLocals text =
        ⟨n.push ⟨.typeBody, scope, ms.addTo withLocals Name.isDeclared scope.path record, resume⟩,
          records ++ ms.records withLocals Name.isDeclared
            ⟨scope, some (record.name, record.imports)⟩⟩

/-- A type is read as its record after the records of the types inside. -/
theorem Progress.read_type {withLocals : Bool} {p : Progress} (h : TypeHeading)
    (constants : Constants) {inside : Members} (hinside : inside.Reads withLocals)
    (hlevel : p.nesting.level ≠ .methodBody) {more : List Lexeme} {text rest : List Char}
    (hlaid : Laid (h.lexemes ++ .mark '\x7b' :: ((constants.lexemes inside.isNil ++ inside.lexemes) ++
      .mark '\x7d' :: more)) text rest) : ∃ after, Laid more after rest ∧
      p.read withLocals text =
        (⟨p.nesting.mapEnclosing fun outer =>
            outer.addImport h.name.text (p.nesting.place.fullName h.name.text),
          p.records ++ (inside.records withLocals Name.isDeclared
            (p.nesting.place.inside h.name.text) ++
              [p.nesting.place.record withLocals Name.isDeclared h constants inside])⟩ :
          Progress).read withLocals after := by
  obtain ⟨body, hbody, hscan⟩ := scan_heading h hlaid
  have hbalanced := (constants.balanced inside.isNil).append inside.balanced
  have hafter := hbalanced.passes.afterBracket_eq hbody
  refine ⟨_, hafter, ?_⟩
  rw [List.append_assoc] at hbody
  have hdot : '.' ∉ h.header.name.toList := h.name.not_mem (by decide)
  rw [Progress.read_of_scan hscan, h.reading (fun hmethod => absurd hmethod hlevel)]
  simp only [Progress.readAfter, Reading.declaring, List.foldl_nil, p.openType_eq hdot]
  obtain ⟨mid, hmid, hconstants⟩ := Progress.read_constants withLocals
    (p := ⟨(p.nesting.mapEnclosing fun outer =>
        outer.addImport h.header.name (p.nesting.place.fullName h.header.name)).push
      ⟨.typeBody, p.nesting.place.scopeInside h.header.name,
        p.nesting.place.startRecord h.header, afterBracket '\x7b' '\x7d' 0 body⟩, p.records⟩)
    constants inside rfl hbody
  have hmembers := hinside
    (p.nesting.mapEnclosing fun outer =>
      outer.addImport h.header.name (p.nesting.place.fullName h.header.name))
    (p.nesting.place.scopeInside h.header.name)
    ((p.nesting.place.startRecord h.header).addFields constants.fields)
    (afterBracket '\x7b' '\x7d' 0 body) p.records more mid rest hmid
  rw [hconstants]
  simp only [Progress.mapRecord, Nesting.mapRecord, Nesting.push] at hmembers ⊢
  rw [hmembers]
  simp [Progress.closeType, Nesting.pop?, Members.addTo, TypeRecord.addFields, Place.startRecord,
    Place.record, Place.inside, TypeHeading.header, Place.scopeInside]

/-- Members are read one after the other. -/
theorem Members.reads (withLocals : Bool) (ms : Members) : ms.Reads withLocals := by
  induction ms with
  | nil =>
      intro n scope record resume records more text rest hlaid
      rw [Progress.read_closeBrace withLocals rfl hlaid]
      simp [addTo, fields, methods, table, Members.records]
  | field d next ih =>
      intro n scope record resume records more text rest hlaid
      rw [lexemes, List.append_assoc] at hlaid
      obtain ⟨after, hafter, hread⟩ := Progress.read_variables withLocals
        (p := ⟨n.push ⟨.typeBody, scope, record, resume⟩, records⟩) d
        (by simp [Nesting.level, Nesting.push]) (by simp [Nesting.level, Nesting.push]) hlaid
      have hnext := ih n scope (record.addFields (d.members Name.isDeclared)) resume records more
        after rest hafter
      refine hread.trans (hnext.trans ?_)
      simp [addTo, fields, methods, table, Members.records, TypeRecord.addFields]
  | method m next ih =>
      intro n scope record resume records more text rest hlaid
      rw [lexemes, List.append_assoc] at hlaid
      obtain ⟨after, hafter, hread⟩ := Progress.read_method withLocals
        (p := ⟨n.push ⟨.typeBody, scope, record, resume⟩, records⟩) m rfl hlaid
      have hnext := ih n scope (record.addMethod (m.method withLocals Name.isDeclared)) resume
        records more after rest hafter
      refine hread.trans (hnext.trans ?_)
      simp [addTo, fields, methods, table, Members.records, TypeRecord.addMethod]
  | type h constants inside next hinside ih =>
      intro n scope record resume records more text rest hlaid
      rw [lexemes, List.append_assoc, List.cons_append, List.append_assoc, List.cons_append] at hlaid
      obtain ⟨after, hafter, hread⟩ := Progress.read_type
        (p := ⟨n.push ⟨.typeBody, scope, record, resume⟩, records⟩) h constants hinside
        (by simp [Nesting.level, Nesting.push]) hlaid
      have hnext := ih n scope
        (record.addImport h.name.text (qualify scope.path h.name.text)) resume
        (records ++ (inside.records withLocals Name.isDeclared
          (Place.inside ⟨scope, some (record.name, record.imports)⟩ h.name.text) ++
            [Place.record withLocals Name.isDeclared ⟨scope, some (record.name, record.imports)⟩
              h constants inside])) more after rest hafter
      refine hread.trans (hnext.trans ?_)
      simp [addTo, fields, methods, table, Members.records, TypeRecord.addImport, Place.after,
        Place.fullName]

/-! ## Whole texts -/

/-- Nothing is read from blanks. -/
theorem Progress.read_blanks (withLocals : Bool) (p : Progress) {text : List Char}
    (hlaid : Laid [] text []) : p.read withLocals text = p := by
  obtain ⟨run, hrun, rfl⟩ := hlaid
  have hgaps : skipGaps (run ++ []) = [] := by
    rw [skipGaps_blanks_append hrun, skipGaps]
  have hscan : scan (run ++ []) = none := by rw [scan, hgaps, OpenStatement.read]
  exact read_of_scan_eq_none hscan

/-- The types of a file are read one after the other. -/
theorem Progress.read_types (withLocals : Bool) (ts : List TypeDeclaration) (file : Scope)
    (records : List TypeRecord) {text : List Char}
    (hlaid : Laid (Members.ofTypes ts).lexemes text []) :
    (⟨⟨file, []⟩, records⟩ : Progress).read withLocals text =
      ⟨⟨file, []⟩, records ++
        (Members.ofTypes ts).records withLocals Name.isDeclared ⟨file, none⟩⟩ := by
  induction ts generalizing records text with
  | nil =>
      rw [read_blanks withLocals _ hlaid]
      simp [Members.ofTypes, Members.records]
  | cons t ts ih =>
      obtain ⟨after, hafter, hread⟩ := read_type (p := ⟨⟨file, []⟩, records⟩) t.heading t.constants
        (t.inside.reads withLocals) (by simp [Nesting.level]) hlaid
      refine hread.trans ((ih _ hafter).trans ?_)
      simp [Members.ofTypes, Members.records, Nesting.place, Nesting.scope, Nesting.enclosing?,
        Nesting.enclosingOf, Place.after]

/-- A clause is applied to the scope. -/
theorem Progress.read_clause (withLocals : Bool) (p : Progress) (keyword : Word)
    (q : QualifiedName) {clause : Clause} (hclause : ∀ level,
      Reading.ofTokens level [keyword.text, q.text] = ⟨[clause], .nothing⟩) {more : List Lexeme}
    {text rest : List Char} (hlaid : Laid (clauseLexemes keyword q ++ more) text rest) :
    ∃ after, Laid more after rest ∧
      p.read withLocals text = (p.apply clause).read withLocals after := by
  obtain ⟨after, hafter, hscan⟩ := scan_clause keyword q hlaid
  refine ⟨after, hafter, ?_⟩
  rw [read_of_scan hscan, hclause]
  rfl

/-- Imports are applied one after the other. -/
theorem Progress.read_imports (withLocals : Bool) (qs : List QualifiedName) (file : Scope)
    (records : List TypeRecord) {more : List Lexeme} {text rest : List Char}
    (hlaid : Laid (qs.flatMap (clauseLexemes importWord) ++ more) text rest) :
    ∃ after, Laid more after rest ∧
      (⟨⟨file, []⟩, records⟩ : Progress).read withLocals text =
        (⟨⟨{ file with imports := qs.foldl QualifiedName.importInto file.imports }, []⟩, records⟩ :
          Progress).read withLocals after := by
  induction qs generalizing file text with
  | nil => exact ⟨text, hlaid, rfl⟩
  | cons q qs ih =>
      rw [List.flatMap_cons, List.append_assoc] at hlaid
      obtain ⟨mid, hmid, hread⟩ := read_clause withLocals ⟨⟨file, []⟩, records⟩ importWord q
        (fun level => Reading.ofTokens_import level q.text) hlaid
      obtain ⟨after, hafter, hrest⟩ := ih { file with imports := q.importInto file.imports } hmid
      refine ⟨after, hafter, ?_⟩
      have happly : (⟨⟨file, []⟩, records⟩ : Progress).apply (.importOf q.text) =
          ⟨⟨{ file with imports := q.importInto file.imports }, []⟩, records⟩ := by
        simp [apply, mapScope, Nesting.mapScope, importType_text]
      rw [hread, happly, hrest, List.foldl_cons]

/-- The outline of a compilation unit, however it is laid out. -/
theorem outline_unit (withLocals : Bool) (u : CompilationUnit) {text : String}
    (hlaid : Laid u.lexemes text.toList []) :
    outline withLocals text = u.records withLocals Name.isDeclared := by
  have hafterPackage : ∃ after,
      Laid (u.imports.flatMap (clauseLexemes importWord) ++ (Members.ofTypes u.types).lexemes)
        after [] ∧ Progress.start.read withLocals text.toList =
          (⟨⟨⟨(u.package.map QualifiedName.text).getD "", .empty⟩, []⟩, []⟩ :
            Progress).read withLocals after := by
    rw [CompilationUnit.lexemes] at hlaid
    cases hpackage : u.package with
    | none =>
        rw [hpackage] at hlaid
        exact ⟨text.toList, hlaid, rfl⟩
    | some q =>
        rw [hpackage, Option.toList_some, List.flatMap_cons, List.flatMap_nil,
          List.append_nil] at hlaid
        exact Progress.read_clause withLocals .start packageWord q
          (fun level => Reading.ofTokens_package level q.text) hlaid
  obtain ⟨mid, hmid, hpackage⟩ := hafterPackage
  obtain ⟨after, hafter, himports⟩ := Progress.read_imports withLocals u.imports _ [] hmid
  rw [outline, hpackage, himports, Progress.read_types withLocals u.types _ [] hafter]
  rfl

/-! ## Names that are not declared -/

/-- The names of the variables that are declared among members, with those
of the bodies of methods if they are wanted. -/
def Members.variableNames (withLocals : Bool) : Members → List Name
  | nil => []
  | field d next => d.names ++ next.variableNames withLocals
  | method m next =>
    (if withLocals then (m.body.getD []).flatMap fun d => d.names else []) ++
      next.variableNames withLocals
  | type _ _ inside next => inside.variableNames withLocals ++ next.variableNames withLocals

/-- Lists that are no longer than others make up as much only if each
does. -/
theorem append_eq_append_iff_of_length_le {α : Type} {as bs cs ds : List α}
    (hac : as.length ≤ cs.length) (hbd : bs.length ≤ ds.length) :
    as ++ bs = cs ++ ds ↔ as = cs ∧ bs = ds := by
  constructor
  · intro h
    have hlength := congrArg List.length h
    rw [List.length_append, List.length_append] at hlength
    exact List.append_inj h (by omega)
  · rintro ⟨rfl, rfl⟩
    rfl

theorem VariableDeclaration.members_everyName (d : VariableDeclaration) :
    d.members everyName = d.names.map d.member := by
  have hall : d.names.filter everyName = d.names := List.filter_eq_self.2 fun _ _ => rfl
  rw [members, hall]

theorem VariableDeclaration.length_members_le (keep : Name → Bool) (d : VariableDeclaration) :
    (d.members keep).length ≤ (d.members everyName).length := by
  rw [members_everyName, members, List.length_map, List.length_map]
  exact List.length_filter_le keep d.names

theorem length_localVariables_le (keep : Name → Bool) (ds : List LocalDeclaration) :
    (localVariables keep ds).length ≤ (localVariables everyName ds).length := by
  induction ds with
  | nil => simp [localVariables]
  | cons d ds ih =>
      have hfirst := d.length_members_le keep
      simp only [localVariables, List.flatMap_cons, List.length_append, List.length_map] at ih ⊢
      omega

theorem localVariables_eq_iff (keep : Name → Bool) (ds : List LocalDeclaration) :
    localVariables keep ds = localVariables everyName ds ↔
      ∀ n ∈ ds.flatMap fun d => d.names, keep n = true := by
  induction ds with
  | nil => simp [localVariables]
  | cons d ds ih =>
      have hfirst : (d.members keep).map Member.toVariable =
          (d.members everyName).map Member.toVariable ↔ ∀ n ∈ d.names, keep n = true := by
        rw [d.members_everyName, VariableDeclaration.members, List.map_map, List.map_map]
        exact map_filter_eq_iff _ keep d.names
      have hlength : ((d.members keep).map Member.toVariable).length ≤
          ((d.members everyName).map Member.toVariable).length := by
        simpa using d.length_members_le keep
      have hcons : ∀ keep, localVariables keep (d :: ds) =
          (d.members keep).map Member.toVariable ++ localVariables keep ds := fun _ => rfl
      rw [hcons, hcons, append_eq_append_iff_of_length_le hlength (length_localVariables_le keep ds),
        hfirst, ih]
      simp [or_imp, forall_and]

namespace Members

variable (withLocals : Bool) (keep : Name → Bool)

theorem length_fields_le (ms : Members) :
    (ms.fields keep).length ≤ (ms.fields everyName).length := by
  induction ms with
  | nil => simp [fields]
  | field d next ih =>
      have hfirst := d.length_members_le keep
      simp only [fields, List.length_append]
      omega
  | method m next ih => exact ih
  | type h constants inside next _ ih => exact ih

theorem length_records (ms : Members) (q : Place) :
    (ms.records withLocals keep q).length = (ms.records withLocals everyName q).length := by
  induction ms generalizing q with
  | nil => rfl
  | field d next ih => exact ih q
  | method m next ih => exact ih q
  | type h constants inside next hinside ih =>
      simp only [records, List.length_append, List.length_cons, hinside, ih]

/-- The full names of types do not depend on the variables. -/
theorem map_fullName_records (ms : Members) (q : Place) :
    (ms.records withLocals keep q).map TypeRecord.fullName =
      (ms.records false everyName q).map TypeRecord.fullName := by
  induction ms generalizing q with
  | nil => rfl
  | field d next ih => exact ih q
  | method m next ih => exact ih q
  | type h constants inside next hinside ih =>
      simp only [records, List.map_append, List.map_cons, hinside, ih]
      rfl

theorem method_eq_iff (m : MethodDeclaration) :
    m.method withLocals keep = m.method withLocals everyName ↔
      ∀ n ∈ (if withLocals then (m.body.getD []).flatMap fun d => d.names else []),
        keep n = true := by
  cases withLocals with
  | false => simp [MethodDeclaration.method]
  | true => simp [MethodDeclaration.method, MethodHeader.method, localVariables_eq_iff]

theorem record_eq_iff (q : Place) (h : TypeHeading) (constants : Constants) (ms : Members) :
    q.record withLocals keep h constants ms = q.record withLocals everyName h constants ms ↔
      ms.fields keep = ms.fields everyName ∧
        ms.methods withLocals keep = ms.methods withLocals everyName := by
  simp [Place.record]

/-- All that is declared is kept if and only if the names of all variables
are. -/
theorem declared_iff (ms : Members) (q : Place) :
    (ms.fields keep = ms.fields everyName ∧
        ms.methods withLocals keep = ms.methods withLocals everyName ∧
          ms.records withLocals keep q = ms.records withLocals everyName q) ↔
      ∀ n ∈ ms.variableNames withLocals, keep n = true := by
  induction ms generalizing q with
  | nil => simp [fields, methods, records, variableNames]
  | field d next ih =>
      have hfirst : d.members keep = d.members everyName ↔ ∀ n ∈ d.names, keep n = true := by
        rw [d.members_everyName]
        exact map_filter_eq_iff d.member keep d.names
      simp only [fields, methods, records, variableNames, List.mem_append, or_imp, forall_and,
        append_eq_append_iff_of_length_le (d.length_members_le keep) (next.length_fields_le keep),
        hfirst, and_assoc, ih q]
  | method m next ih =>
      have hfirst := method_eq_iff withLocals keep m
      simp only [fields, methods, records, variableNames, List.mem_append, or_imp, forall_and,
        List.cons.injEq, hfirst, ← ih q]
      grind
  | type h constants inside next hinside ih =>
      have hinner := inside.length_records withLocals keep (q.inside h.name.text)
      have houter := next.length_records withLocals keep (q.after h.name.text)
      have hrest : (inside.records withLocals keep (q.inside h.name.text) ++
          (q.record withLocals keep h constants inside ::
            next.records withLocals keep (q.after h.name.text)) =
          inside.records withLocals everyName (q.inside h.name.text) ++
            (q.record withLocals everyName h constants inside ::
              next.records withLocals everyName (q.after h.name.text))) ↔
          inside.records withLocals keep (q.inside h.name.text) =
              inside.records withLocals everyName (q.inside h.name.text) ∧
            q.record withLocals keep h constants inside =
                q.record withLocals everyName h constants inside ∧
              next.records withLocals keep (q.after h.name.text) =
                next.records withLocals everyName (q.after h.name.text) := by
        have htail : (q.record withLocals keep h constants inside ::
            next.records withLocals keep (q.after h.name.text)).length ≤
              (q.record withLocals everyName h constants inside ::
                next.records withLocals everyName (q.after h.name.text)).length := by
          simp only [List.length_cons]
          omega
        rw [append_eq_append_iff_of_length_le (by omega) htail, List.cons.injEq]
      simp only [fields, methods, records, variableNames, List.mem_append, or_imp, forall_and,
        hrest, record_eq_iff, ← hinside (q.inside h.name.text), ← ih (q.after h.name.text)]
      grind

end Members

/-! ## Registering -/

namespace CompilationUnit

/-- The full names of the types of a text, in the order of their records. -/
def fullNames (u : CompilationUnit) : List String :=
  (u.records false everyName).map TypeRecord.fullName

/-- The names of the variables that are declared in a text, with those of
the bodies of methods if they are wanted. -/
def variableNames (withLocals : Bool) (u : CompilationUnit) : List Name :=
  (Members.ofTypes u.types).variableNames withLocals

theorem map_fullName_records (withLocals : Bool) (keep : Name → Bool) (u : CompilationUnit) :
    (u.records withLocals keep).map TypeRecord.fullName = u.fullNames :=
  Members.map_fullName_records withLocals keep (Members.ofTypes u.types) ⟨u.scope, none⟩

/-- The records have every variable if and only if every name is kept. -/
theorem records_eq_iff (withLocals : Bool) (keep : Name → Bool) (u : CompilationUnit) :
    u.records withLocals keep = u.records withLocals everyName ↔
      ∀ n ∈ u.variableNames withLocals, keep n = true := by
  have htypes : ∀ (ts : List TypeDeclaration) (keep : Name → Bool),
      (Members.ofTypes ts).fields keep = [] ∧
        (Members.ofTypes ts).methods withLocals keep = [] := by
    intro ts keep
    induction ts with
    | nil => exact ⟨rfl, rfl⟩
    | cons t ts ih => exact ih
  have hdeclared := (Members.ofTypes u.types).declared_iff withLocals keep ⟨u.scope, none⟩
  rw [(htypes u.types keep).1, (htypes u.types keep).2, (htypes u.types everyName).1,
    (htypes u.types everyName).2] at hdeclared
  simpa [records, variableNames] using hdeclared

/-- **What is written is registered.**  A compilation unit whose types have
distinct full names is read from any text in which its lexemes are laid
out; one blank between any two of them will do.  Exactly its types are
registered, each after the types inside of it, and the records are those
that were written if and only if the names of all variables count as
identifiers: other variables are left out. -/
theorem registers_iff (u : CompilationUnit) (withLocals : Bool) (hdistinct : u.fullNames.Nodup) :
    Laid u.lexemes (spaced u.lexemes) [] ∧
      ∀ text : String, Laid u.lexemes text.toList [] →
        (Registry.empty.readText withLocals text).2 = u.fullNames ∧
          (Registry.empty.readText withLocals text).1.toList =
            u.records withLocals Name.isDeclared ∧
          ((Registry.empty.readText withLocals text).1.toList = u.records withLocals everyName ↔
            ∀ n ∈ u.variableNames withLocals, n.isDeclared = true) := by
  refine ⟨u.laid_spaced, fun text hlaid => ?_⟩
  have hnames := u.map_fullName_records withLocals Name.isDeclared
  have hnodup : ((u.records withLocals Name.isDeclared).map TypeRecord.fullName).Nodup := by
    rw [hnames]
    exact hdistinct
  have hfresh : Registry.empty.fresh (u.records withLocals Name.isDeclared) =
      u.records withLocals Name.isDeclared := by
    rw [Registry.fresh_eq_filter hnodup]
    simp
  have hlist : (Registry.empty.readText withLocals text).1.toList =
      u.records withLocals Name.isDeclared := by
    simp [Registry.readText_eq, outline_unit withLocals u hlaid, hfresh]
  have haccepted : (Registry.empty.readText withLocals text).2 = u.fullNames := by
    simp [Registry.readText_eq, outline_unit withLocals u hlaid, hfresh, hnames]
  refine ⟨haccepted, hlist, ?_⟩
  rw [hlist]
  exact u.records_eq_iff withLocals Name.isDeclared

/-- A compilation unit with most of what can be written. -/
def cart : CompilationUnit where
  package := some ⟨⟨⟨"shop", .refl true⟩, .refl false⟩, []⟩
  imports := [⟨⟨⟨"java", .refl true⟩, .refl false⟩, [⟨"util", .refl true⟩, ⟨"List", .refl true⟩]⟩]
  types := [
    { heading :=
        { modifiers := [⟨"public", .refl true⟩]
          kind := .classType
          name := ⟨⟨"Cart", .refl true⟩, .refl false⟩
          superType := some ⟨⟨⟨⟨⟨"Base", .refl true⟩, .refl false⟩, []⟩,
            some ⟨[.word ⟨"Item", .refl true⟩], .refl true, .refl true⟩⟩, 0⟩
          interfaces := [⟨⟨⟨⟨"Closed", .refl true⟩, .refl false⟩, []⟩, none⟩] }
      constants := ⟨[], false⟩
      inside :=
        .field
          { modifiers := [⟨"private", .refl true⟩, ⟨"static", .refl true⟩]
            type := ⟨⟨⟨⟨⟨"int", .refl true⟩, .refl false⟩, []⟩, none⟩, 0⟩
            first := ⟨⟨⟨"size", .refl true⟩, .refl false⟩, none⟩
            more := [⟨⟨⟨"total", .refl true⟩, .refl false⟩,
              some ⟨[.word ⟨"f", .refl true⟩, .mark '(', .word ⟨"1", .refl true⟩, .mark ',',
                .word ⟨"2", .refl true⟩, .mark ')'], .refl true⟩⟩] }
        (.method
          { header :=
              { modifiers := []
                type := none
                name := ⟨⟨"Cart", .refl true⟩, .refl false⟩
                parameters := [⟨true, ⟨⟨⟨⟨⟨"int", .refl true⟩, .refl false⟩, []⟩, none⟩, 0⟩,
                  ⟨⟨"size", .refl true⟩, .refl false⟩⟩] }
            body := some [
              { modifiers := []
                type := ⟨⟨⟨⟨⟨"Item", .refl true⟩, .refl false⟩, []⟩, none⟩, 1⟩
                first := ⟨⟨⟨"items", .refl true⟩, .refl false⟩, none⟩
                more := []
                plainly := by simp }]
            complete := by simp }
        (.type
          { modifiers := []
            kind := .enumType
            name := ⟨⟨"Kind", .refl true⟩, .refl false⟩
            superType := none
            interfaces := [] }
          ⟨[⟨⟨"BIG", .refl true⟩, .refl false⟩, ⟨⟨"SMALL", .refl true⟩, .refl false⟩], false⟩ .nil
        .nil)) }]

/-- The text of `cart` with one blank between any two lexemes. -/
def cartText : String :=
  "package shop ; import java . util . List ; " ++
    "public class Cart extends Base < Item > implements Closed \x7b " ++
    "private static int size , total = f ( 1 , 2 ) ; Cart ( final int size ) \x7b Item [ ] items ; \x7d " ++
    "enum Kind \x7b BIG , SMALL \x7d \x7d"

theorem registers_iff_cart :
    cart.fullNames.Nodup ∧ String.ofList (spaced cart.lexemes) = cartText ∧
      (Registry.empty.readText true cartText).2 = ["shop.Cart.Kind", "shop.Cart"] ∧
        (Registry.empty.readText true cartText).1.toList = cart.records true everyName := by
  have hnames : cart.fullNames = ["shop.Cart.Kind", "shop.Cart"] := by decide +kernel
  have hdistinct : cart.fullNames.Nodup := by
    rw [hnames]
    decide
  have htext : String.ofList (spaced cart.lexemes) = cartText := by decide +kernel
  obtain ⟨hspaced, hregisters⟩ := registers_iff cart true hdistinct
  have hlaid : Laid cart.lexemes cartText.toList [] := by
    rw [← htext, String.toList_ofList]
    exact hspaced
  obtain ⟨haccepted, _, hiff⟩ := hregisters cartText hlaid
  rw [hnames] at haccepted
  exact ⟨hdistinct, htext, haccepted, hiff.2 (by decide +kernel)⟩

/-- The unit `class A { int € ; }`. -/
def euro : CompilationUnit where
  package := none
  imports := []
  types := [
    { heading := ⟨[], .classType, ⟨⟨"A", .refl true⟩, .refl false⟩, none, []⟩
      constants := ⟨[], false⟩
      inside :=
        .field
          { modifiers := []
            type := ⟨⟨⟨⟨⟨"int", .refl true⟩, .refl false⟩, []⟩, none⟩, 0⟩
            first := ⟨⟨⟨"\u20AC", .refl true⟩, .refl false⟩, none⟩
            more := [] } .nil }]

/-- A currency sign is an identifier in Java, but not for the readers. -/
theorem not_registered_euro :
    String.ofList (spaced euro.lexemes) = "class A \x7b int \u20AC ; \x7d" ∧
      (outline false "class A \x7b int \u20AC ; \x7d").map TypeRecord.fields = [[]] ∧
        outline false "class A \x7b int \u20AC ; \x7d" ≠ euro.records false everyName := by
  decide +kernel

end CompilationUnit

end JavaOutline
