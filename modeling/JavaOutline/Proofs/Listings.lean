import JavaOutline.Proofs.ListingLines

/-!
# JavaOutline.Proofs.Listings

The listing of a record is read back.

* The clauses of a header follow one another in a fixed order, each begun by its
  keyword (`TypeRecord.ofHeader?`).
* Below the header there is a line for each member, which is read by itself, and local
  variables belong to the method above them (`ListingLine.methods`).

Package, imports and static flags are not listed: `TypeRecord.shown` is a record
without them.  `TypeRecord.listing_faithful` puts this together.
-/

namespace JavaOutline

open Wording

/-! ## Clauses -/

/-- A keyword with a name, if there is a name. -/
def clauseWords (keyword : String) (clause : Option String) : List String :=
  clause.toList.flatMap fun name => [keyword, name]

/-- The name behind a keyword, and what follows. -/
def readClause (keyword : String) : List String → Option String × List String
  | word :: name :: rest =>
    if word = keyword then (some name, rest) else (none, word :: name :: rest)
  | ws => (none, ws)

/-- A keyword with a list of names, if the list is not empty. -/
def listClauseWords (keyword : String) (names : List String) : List String :=
  if names.isEmpty then [] else keyword :: listWords (names.map ([·]))

/-- The names behind a keyword, and what follows. -/
def readListClause (keyword : String) : List String → List String × List String
  | [] => ([], [])
  | word :: rest => if word = keyword then itemsBefore rest else ([], word :: rest)

section

variable {keyword : String} {names rest : List String} {P : String → Prop}

theorem forall_clauseWords {clause : Option String} (hkeyword : P keyword)
    (h : ∀ name ∈ clause, P name) : ∀ w ∈ clauseWords keyword clause, P w := by
  cases clause with
  | none => simp [clauseWords]
  | some name => simpa [clauseWords] using ⟨hkeyword, h name rfl⟩

theorem forall_listClauseWords (hkeyword : P keyword) (hcomma : ∀ w, P w → P (w ++ ","))
    (h : ∀ name ∈ names, P name) : ∀ w ∈ listClauseWords keyword names, P w := by
  rw [listClauseWords]
  split
  · simp
  · exact List.forall_mem_cons.2 ⟨hkeyword, forall_listWords hcomma
      (List.forall_mem_map.2 fun name hname => by simpa using h name hname)⟩

/-- A clause is read back, if what follows does not begin with its keyword. -/
theorem readClause_append (name : Option String) (h : ∀ w ∈ rest.head?, w ≠ keyword) :
    readClause keyword (clauseWords keyword name ++ rest) = (name, rest) := by
  cases name with
  | some name => simp [clauseWords, readClause]
  | none =>
    match rest with
    | [] => rfl
    | [w] => rfl
    | w :: next :: rest => simp [clauseWords, readClause, h w rfl]

theorem readListClause_append (hnames : ∀ name ∈ names, IsWord name)
    (h : ∀ w ∈ rest.head?, w ≠ keyword) :
    readListClause keyword (listClauseWords keyword names ++ rest) = (names, rest) := by
  by_cases hempty : names = []
  · subst hempty
    cases rest with
    | nil => rfl
    | cons w rest => simp [listClauseWords, readListClause, h w rfl]
  · have hnotempty : names.isEmpty = false := by simpa using hempty
    simp [listClauseWords, hnotempty, readListClause,
      itemsBefore_append hempty fun name hname => (hnames name hname).noComma]

end

theorem join_clauseWords (keyword : String) (name : Option String) :
    String.join ((clauseWords keyword name).map (" " ++ ·)) =
      (name.map ((" " ++ (keyword ++ " ")) ++ ·)).getD "" := by
  cases name <;> simp [clauseWords, String.append_assoc]

theorem join_listClauseWords (keyword : String) (names : List String) :
    String.join ((listClauseWords keyword names).map (" " ++ ·)) =
      if names.isEmpty then "" else " " ++ (keyword ++ " ") ++ ", ".intercalate names := by
  cases names with
  | nil => rfl
  | cons name names =>
    have hwritten : " ".intercalate (listWords ((name :: names).map ([·]))) =
        ", ".intercalate (name :: names) := by
      rw [intercalate_listWords (by simp), List.map_map]
      simp [Function.comp_def]
    have hwords : listWords ((name :: names).map ([·])) ≠ [] :=
      listWords_ne_nil (by simp) (by simp)
    have hfront : String.join ((keyword :: listWords ((name :: names).map ([·]))).map (" " ++ ·)) =
        " " ++ " ".intercalate (keyword :: listWords ((name :: names).map ([·]))) := by
      rw [intercalate_cons, List.map_cons, String.join_cons, String.append_assoc]
    rw [listClauseWords, List.isEmpty_cons, if_neg (by simp), if_neg (by simp), hfront,
      String.intercalate_cons_of_ne_nil hwords, hwritten]
    simp only [String.append_assoc]

/-! ## Members -/

namespace ListingLine

/-- The field that a line says. -/
def field? : ListingLine → Option Member
  | .field f => some f
  | _ => none

/-- The local variables in front of the first method, and the methods with the local
variables below them. -/
def methods : List ListingLine → List Variable × List Method
  | [] => ([], [])
  | .field _ :: rest => methods rest
  | .method m :: rest => ([], { m with locals := (methods rest).1 } :: (methods rest).2)
  | .localVariable v :: rest => (v :: (methods rest).1, (methods rest).2)

theorem methods_fields (fields : List Member) (rest : List ListingLine) :
    methods (fields.map .field ++ rest) = methods rest := by
  induction fields with
  | nil => rfl
  | cons f fields ih => exact ih

theorem methods_locals (locals : List Variable) (rest : List ListingLine) :
    methods (locals.map .localVariable ++ rest) =
      (locals ++ (methods rest).1, (methods rest).2) := by
  induction locals with
  | nil => rfl
  | cons v locals ih => rw [List.map_cons, List.cons_append, methods, ih]; rfl

end ListingLine

/-! ## Headers -/

namespace TypeRecord

variable {t u : TypeRecord}

/-- The words of the header of a record. -/
def headerWords (t : TypeRecord) : List String :=
  t.kind.keyword :: t.name :: (clauseWords "extends" t.superName ++
    (listClauseWords "implements" t.interfaceNames ++ clauseWords "inside" t.outerName))

/-- The record, without members, that a header says. -/
def ofHeader? (text : List Char) : Option TypeRecord :=
  match words text with
  | keyword :: name :: rest => do
    let kind ← TypeKind.ofKeyword? keyword
    let extended := readClause "extends" rest
    let implemented := readListClause "implements" extended.2
    let enclosed := readClause "inside" implemented.2
    if enclosed.2 = [] then
      some {
        packagePath := ""
        name
        kind
        superName := extended.1
        outerName := enclosed.1
        interfaceNames := implemented.1
        fields := []
        methods := []
        imports := .empty }
    else none
  | _ => none

/-- Whether a record can be read off its listing. -/
structure IsLegible (t : TypeRecord) : Prop where
  name : IsUnbroken t.name
  superName : ∀ name ∈ t.superName, IsListable name
  interfaceNames : ∀ name ∈ t.interfaceNames, IsListable name
  outerName : ∀ name ∈ t.outerName, IsListable name
  fields : ∀ f ∈ t.fields, f.toVariable.IsLegible
  methods : ∀ m ∈ t.methods, m.IsLegible

instance (t : TypeRecord) : Decidable t.IsLegible :=
  decidable_of_iff (IsUnbroken t.name ∧
      (∀ name ∈ t.superName, IsListable name) ∧ (∀ name ∈ t.interfaceNames, IsListable name) ∧
      (∀ name ∈ t.outerName, IsListable name) ∧ (∀ f ∈ t.fields, f.toVariable.IsLegible) ∧
      ∀ m ∈ t.methods, m.IsLegible)
    ⟨fun ⟨h1, h2, h3, h4, h5, h6⟩ => ⟨h1, h2, h3, h4, h5, h6⟩,
      fun ⟨h1, h2, h3, h4, h5, h6⟩ => ⟨h1, h2, h3, h4, h5, h6⟩⟩

theorem headerLine_eq_intercalate (t : TypeRecord) :
    t.headerLine = " ".intercalate t.headerWords := by
  have himplements : " implements " = " " ++ ("implements" ++ " ") := by decide
  have hextends : " extends " = " " ++ ("extends" ++ " ") := by decide
  have hinside : " inside " = " " ++ ("inside" ++ " ") := by decide
  rw [headerWords, intercalate_cons, List.map_cons, String.join_cons, List.map_append,
    String.join_append, List.map_append, String.join_append, join_listClauseWords,
    join_clauseWords, join_clauseWords, headerLine, himplements, hextends, hinside]
  simp only [String.append_assoc]

theorem IsLegible.isUnbroken (h : t.IsLegible) : ∀ w ∈ t.headerWords, IsUnbroken w := by
  have hkind : IsUnbroken t.kind.keyword := by cases t.kind <;> decide
  have hsuper : ∀ w ∈ clauseWords "extends" t.superName, IsUnbroken w :=
    forall_clauseWords (by decide) fun name hname => (h.superName name hname).unbroken
  have hinterfaces : ∀ w ∈ listClauseWords "implements" t.interfaceNames, IsUnbroken w :=
    forall_listClauseWords (by decide) IsUnbroken.comma fun name hname =>
      (h.interfaceNames name hname).unbroken
  have houter : ∀ w ∈ clauseWords "inside" t.outerName, IsUnbroken w :=
    forall_clauseWords (by decide) fun name hname => (h.outerName name hname).unbroken
  exact List.forall_mem_cons.2 ⟨hkind, List.forall_mem_cons.2 ⟨h.name, List.forall_mem_append.2
    ⟨hsuper, List.forall_mem_append.2 ⟨hinterfaces, houter⟩⟩⟩⟩

theorem IsLegible.not_mem_headerLine (h : t.IsLegible) : '\n' ∉ t.headerLine.toList := by
  rw [headerLine_eq_intercalate]
  exact not_mem_intercalate (by decide) fun w hw => (h.isUnbroken w hw).noBreak

/-- A header is read back. -/
theorem IsLegible.ofHeader?_headerLine (h : t.IsLegible) :
    ofHeader? t.headerLine.toList =
      some { t with packagePath := "", imports := .empty, fields := [], methods := [] } := by
  have hwords := words_intercalate (by simp [headerWords]) fun w hw => (h.isUnbroken w hw).noBlank
  have hover : ∀ w ∈ (listClauseWords "implements" t.interfaceNames ++
      clauseWords "inside" t.outerName).head?, w ≠ "extends" := by
    cases t.outerName <;> cases t.interfaceNames <;> simp [clauseWords, listClauseWords]
  have hinside : ∀ w ∈ (clauseWords "inside" t.outerName).head?, w ≠ "implements" := by
    cases t.outerName <;> simp [clauseWords]
  have hextended := readClause_append t.superName hover
  have himplemented :=
    readListClause_append (fun name hname => (h.interfaceNames name hname).isWord) hinside
  have henclosed : readClause "inside" (clauseWords "inside" t.outerName) = (t.outerName, []) := by
    cases t.outerName <;> simp [clauseWords, readClause]
  rw [ofHeader?, headerLine_eq_intercalate, hwords, headerWords]
  simp [hextended, himplemented, henclosed]

/-! ## Listings -/

/-- A record as far as its listing shows it. -/
def shown (t : TypeRecord) : TypeRecord :=
  { t with
    packagePath := ""
    imports := .empty
    fields := t.fields.map fun f => { f with isStatic := false }
    methods := t.methods.map fun m => { m with isStatic := false } }

/-- The lines of a method and its local variables. -/
def bodyLines (m : Method) : List ListingLine :=
  .method m :: m.locals.map .localVariable

/-- The lines below the header of a record. -/
def body (t : TypeRecord) : List ListingLine :=
  t.fields.map .field ++ t.methods.flatMap bodyLines

/-- The record that a listing says. -/
def ofListing? (text : String) : Option TypeRecord :=
  match (text.toList.splitOn '\n').dropLast with
  | [] => none
  | header :: rest => do
    let t ← ofHeader? header
    let lines ← rest.mapM ListingLine.ofText?
    some { t with
      fields := lines.filterMap ListingLine.field?
      methods := (ListingLine.methods lines).2 }

theorem lines_eq (t : TypeRecord) : t.lines = t.headerLine :: t.body.map ListingLine.text := by
  have hmethod : (fun m => (bodyLines m).map ListingLine.text) = methodLines :=
    funext fun m => by simp [bodyLines, methodLines, ListingLine.text, Function.comp_def]
  rw [lines, body, List.map_append, List.map_map, List.map_flatMap, hmethod]
  rfl

theorem IsLegible.body (h : t.IsLegible) : ∀ line ∈ t.body, line.IsLegible := by
  refine List.forall_mem_append.2 ⟨List.forall_mem_map.2 h.fields, fun line hline => ?_⟩
  obtain ⟨m, hm, hmem⟩ := List.mem_flatMap.1 hline
  obtain rfl | hlocal := List.mem_cons.1 hmem
  · exact h.methods m hm
  · obtain ⟨v, hv, rfl⟩ := List.mem_map.1 hlocal
    exact (h.methods m hm).locals v hv

/-- Methods are put together with their local variables. -/
theorem methods_flatMap (methods : List Method) :
    ListingLine.methods ((methods.flatMap bodyLines).map ListingLine.shown) =
      ([], methods.map fun m => { m with isStatic := false }) := by
  induction methods with
  | nil => rfl
  | cons m methods ih =>
    have hlocals : (m.locals.map ListingLine.localVariable).map ListingLine.shown =
        m.locals.map .localVariable := by simp [ListingLine.shown, Function.comp_def]
    rw [List.flatMap_cons, bodyLines, List.cons_append, List.map_cons, List.map_append, hlocals,
      ListingLine.shown, ListingLine.methods, ListingLine.methods_locals, ih]
    simp [Method.inLine]

/-- The members of a record are read off the lines of its body. -/
theorem members_body (t : TypeRecord) :
    (t.body.map ListingLine.shown).filterMap ListingLine.field? = t.shown.fields ∧
      (ListingLine.methods (t.body.map ListingLine.shown)).2 = t.shown.methods := by
  have hfields : (t.fields.map ListingLine.field).map ListingLine.shown =
      t.shown.fields.map .field := by simp [shown, ListingLine.shown, Function.comp_def]
  have hnone : ((t.methods.flatMap bodyLines).map ListingLine.shown).filterMap
      ListingLine.field? = [] := by
    refine List.filterMap_eq_nil_iff.2 (List.forall_mem_map.2 fun line hline => ?_)
    obtain ⟨m, -, hmem⟩ := List.mem_flatMap.1 hline
    obtain rfl | hlocal := List.mem_cons.1 hmem
    · rfl
    · obtain ⟨v, -, rfl⟩ := List.mem_map.1 hlocal
      rfl
  rw [body, List.map_append, hfields]
  constructor
  · rw [List.filterMap_append, hnone, List.append_nil, List.filterMap_map]
    exact List.filterMap_some
  · rw [ListingLine.methods_fields, methods_flatMap]
    rfl

/-- A listing is read back. -/
theorem IsLegible.ofListing?_listing (h : t.IsLegible) : ofListing? t.listing = some t.shown := by
  have hbreaks : ∀ line ∈ t.lines, '\n' ∉ line.toList := by
    rw [lines_eq]
    exact List.forall_mem_cons.2 ⟨h.not_mem_headerLine, List.forall_mem_map.2 fun line hline =>
      (h.body line hline).not_mem_text⟩
  have hlines : (t.body.map fun line => line.text.toList).mapM ListingLine.ofText? =
      some (t.body.map ListingLine.shown) :=
    mapM_map_eq_some fun line hline => (h.body line hline).ofText?_text
  obtain ⟨hfields, hmethods⟩ := t.members_body
  rw [ofListing?, listing, splitOn_lines hbreaks, List.dropLast_concat, lines_eq, List.map_cons]
  simp [h.ofHeader?_headerLine, hlines, hfields, hmethods, shown, Function.comp_def]

/-- What is not shown does not show. -/
theorem listing_shown (t : TypeRecord) : t.shown.listing = t.listing := by
  have hlines : t.shown.lines = t.lines := by
    simp only [lines, shown, List.map_map, List.flatMap_map]
    rfl
  rw [listing, hlines, listing]

theorem shown_eq_iff :
    t.shown = u.shown ↔ t.kind = u.kind ∧ t.name = u.name ∧ t.superName = u.superName ∧
      t.interfaceNames = u.interfaceNames ∧ t.outerName = u.outerName ∧
      t.shown.fields = u.shown.fields ∧ t.shown.methods = u.shown.methods := by
  simp only [shown, mk.injEq]
  grind

/-- **A listing loses nothing that it shows.**  A legible record is read off its
listing, but for its package, its imports and static flags.  So legible records have the
same listing exactly if they have the same kind, name, super type, interfaces and
enclosing type, and, static flags aside, the same fields and methods in order, with
access levels, names, types, final flags, parameters and local variables. -/
theorem listing_faithful (ht : t.IsLegible) (hu : u.IsLegible) :
    ofListing? t.listing = some t.shown ∧
      (t.listing = u.listing ↔ t.kind = u.kind ∧ t.name = u.name ∧ t.superName = u.superName ∧
        t.interfaceNames = u.interfaceNames ∧ t.outerName = u.outerName ∧
        t.shown.fields = u.shown.fields ∧ t.shown.methods = u.shown.methods) := by
  rw [← shown_eq_iff]
  refine ⟨ht.ofListing?_listing, fun h => ?_, fun h => ?_⟩
  · have hread := ht.ofListing?_listing
    rw [h, hu.ofListing?_listing, Option.some.injEq] at hread
    exact hread.symm
  · rw [← t.listing_shown, h, u.listing_shown]

/-- A class with every part that a listing can show. -/
def ledger : TypeRecord where
  packagePath := "office"
  name := "Ledger"
  kind := .classType
  superName := some "Book<K,V>"
  outerName := some "Office"
  interfaceNames := ["Map<K,V>", "Closeable"]
  fields := [⟨⟨"total", some "Map<K,V>", true⟩, .privateAccess, true⟩]
  methods :=
    [⟨⟨⟨"pay", some "boolean", true⟩, .publicAccess, false⟩,
      [⟨"amount", some "Pair<A,B>", true⟩, ⟨"to", none, false⟩], [⟨"rest", some "long", true⟩]⟩,
      ⟨⟨⟨"Ledger", none, false⟩, .packageAccess, false⟩, [], []⟩]
  imports := .empty

/-- The class is read off its listing, which is that of the class in another package. -/
theorem listing_faithful_ledger :
    ledger.IsLegible ∧ { ledger with packagePath := "home" }.IsLegible ∧
      ofListing? ("class Ledger extends Book<K,V> implements Map<K,V>, Closeable inside Office\n" ++
        " - total : Map<K,V> (final)\n" ++
        " + pay(amount : Pair<A,B> (final), to) : boolean (final)\n   * rest : long (final)\n" ++
        " ~ Ledger()\n") = some ledger.shown ∧
      ledger.listing = { ledger with packagePath := "home" }.listing := by
  have hlegible : ledger.IsLegible := by decide +kernel
  have hother : { ledger with packagePath := "home" }.IsLegible := by decide +kernel
  have hlisting : ledger.listing =
      "class Ledger extends Book<K,V> implements Map<K,V>, Closeable inside Office\n" ++
        " - total : Map<K,V> (final)\n" ++
        " + pay(amount : Pair<A,B> (final), to) : boolean (final)\n   * rest : long (final)\n" ++
        " ~ Ledger()\n" := by decide +kernel
  obtain ⟨hread, hsame⟩ := listing_faithful hlegible hother
  exact ⟨hlegible, hother, hlisting ▸ hread, hsame.2 ⟨rfl, rfl, rfl, rfl, rfl, rfl, rfl⟩⟩

end TypeRecord

end JavaOutline
