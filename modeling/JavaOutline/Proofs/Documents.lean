import JavaOutline.Export.Document
import JavaOutline.Proofs.Rebuilding

/-!
# JavaOutline.Proofs.Documents

The JSON document of a registry loses nothing.

The names of the fields of an object are distinct, on all levels that are laid
flat into it, so every field is found under its own name
(`Json.fields?_ofFields`).  A member is therefore read back from any object that
has its fields, also from that of a method (`Member.ofJson?_ofFields`), and a
record from any object that has its fields, also from one with its full name
beside them (`TypeRecord.ofJson?_toNamedJson`).

`Registry.Built.document_lossless` reads a whole document back.
-/

namespace JavaOutline

open Json

/-! ## Names of a kind -/

@[simp] theorem Access.ofJson?_toJson (access : Access) :
    Access.ofJson? access.toJson = some access := by
  simp [Access.ofJson?, Access.toJson]

@[simp] theorem TypeKind.ofJson?_toJson (kind : TypeKind) :
    TypeKind.ofJson? kind.toJson = some kind := by
  simp [TypeKind.ofJson?, TypeKind.toJson]

@[simp] theorem Relation.Kind.ofJson?_toJson (kind : Relation.Kind) :
    Relation.Kind.ofJson? kind.toJson = some kind := by
  simp [Relation.Kind.ofJson?, Relation.Kind.toJson]

/-- A name that may be absent is read back. -/
@[simp] theorem Json.optional?_string (name : Option String) :
    (Json.ofOption Json.string name).optional? Json.string? = some name :=
  optional?_ofOption (fun _ h => nomatch h) fun _ _ => rfl

/-- Names are read back. -/
@[simp] theorem Json.list?_string (names : List String) :
    (Json.ofList Json.string names).list? Json.string? = some names :=
  list?_ofList fun _ _ => rfl

/-! ## Variables and members -/

@[simp] theorem Variable.ofParts?_toFields (v : Variable) :
    Variable.ofParts? (v.toFields.map Prod.snd) = some v := by
  simp [Variable.toFields, Variable.ofParts?]

@[simp] theorem Variable.ofJson?_toJson (v : Variable) : Variable.ofJson? v.toJson = some v := by
  have hdistinct : (v.toFields.map Prod.fst).Nodup := by simp [Variable.toFields]
  have hparts : v.toJson.parts? fieldNames = some (v.toFields.map Prod.snd) :=
    (parts?_ofFields _ _).trans (fields?_ofFields hdistinct (List.Subset.refl _))
  rw [Variable.ofJson?, hparts, Option.bind_some, Variable.ofParts?_toFields]

/-- A member is read back from every object that has its fields. -/
theorem Member.ofJson?_ofFields {m : Member} {fields : List (String × Json)}
    (hdistinct : (fields.map Prod.fst).Nodup) (hm : m.toFields ⊆ fields) :
    Member.ofJson? (.ofFields fields) = some m := by
  obtain ⟨hvariable, hown⟩ := List.append_subset.1 hm
  have hvalue : (Json.ofFields fields).fields? Variable.fieldNames =
      some (m.toVariable.toFields.map Prod.snd) := fields?_ofFields hdistinct hvariable
  have hrest : (Json.ofFields fields).fields? ["accessibility", "is_static"] =
      some [m.access.toJson, .boolean m.isStatic] := fields?_ofFields hdistinct hown
  rw [Member.ofJson?, hvalue, hrest]
  simp

@[simp] theorem Member.ofJson?_toJson (m : Member) : Member.ofJson? m.toJson = some m :=
  Member.ofJson?_ofFields (by simp [Member.toFields, Variable.toFields]) (List.Subset.refl _)

@[simp] theorem Method.ofJson?_toJson (m : Method) : Method.ofJson? m.toJson = some m := by
  have hdistinct : ((m.toMember.toFields ++
      [("parameters", Json.ofList Variable.toJson m.parameters),
        ("variables", Json.ofList Variable.toJson m.locals)]).map Prod.fst).Nodup := by
    simp [Member.toFields, Variable.toFields]
  have hmember := Member.ofJson?_ofFields hdistinct (List.subset_append_left _ _)
  have hrest : m.toJson.fields? ["parameters", "variables"] =
      some [Json.ofList Variable.toJson m.parameters, Json.ofList Variable.toJson m.locals] :=
    fields?_ofFields hdistinct (List.subset_append_right _ _)
  have hvariables : ∀ vs : List Variable,
      (Json.ofList Variable.toJson vs).list? Variable.ofJson? = some vs := fun vs =>
    list?_ofList fun v _ => v.ofJson?_toJson
  rw [Method.ofJson?, hrest]
  rw [← Method.toJson] at hmember
  simp [hmember, hvariables]

/-! ## Records -/

@[simp] theorem ImportTable.ofJson?_toJson (table : ImportTable) :
    ImportTable.ofJson? table.toJson = some table := by
  have hentries : (table.entries.map fun e => (e.1, Json.string e.2)).mapM ImportTable.entryOf? =
      some (table.entries.map id) := mapM_map_eq_some fun _ _ => rfl
  rw [ImportTable.toJson, ImportTable.ofJson?, hentries, List.map_id, Option.map_some,
    ImportTable.ofList_entries]

/-- The names of the fields of a record are distinct, with its full name among
them. -/
theorem TypeRecord.nodup_toNamedFields (t : TypeRecord) :
    ((t.toFields ++ [("full_name", Json.string t.fullName)]).map Prod.fst).Nodup := by
  simp [TypeRecord.toFields]

/-- A record is read back from every object that has its fields. -/
theorem TypeRecord.ofJson?_ofFields {t : TypeRecord} {fields : List (String × Json)}
    (hdistinct : (fields.map Prod.fst).Nodup) (ht : t.toFields ⊆ fields) :
    TypeRecord.ofJson? (.ofFields fields) = some t := by
  have hparts : (Json.ofFields fields).parts? fieldNames = some (t.toFields.map Prod.snd) :=
    (parts?_ofFields _ _).trans (fields?_ofFields hdistinct ht)
  have hfields : (Json.ofList Member.toJson t.fields).list? Member.ofJson? = some t.fields :=
    list?_ofList fun m _ => m.ofJson?_toJson
  have hmethods : (Json.ofList Method.toJson t.methods).list? Method.ofJson? = some t.methods :=
    list?_ofList fun m _ => m.ofJson?_toJson
  rw [TypeRecord.ofJson?, hparts]
  simp [TypeRecord.toFields, hfields, hmethods]

/-- A record is read back from the form with its full name. -/
theorem TypeRecord.ofJson?_toNamedJson (t : TypeRecord) :
    TypeRecord.ofJson? t.toNamedJson = some t :=
  TypeRecord.ofJson?_ofFields t.nodup_toNamedFields (List.subset_append_left _ _)

/-- The full name that stands beside the fields. -/
theorem TypeRecord.fields?_full_name (t : TypeRecord) :
    t.toNamedJson.fields? ["full_name"] = some [.string t.fullName] :=
  fields?_ofFields t.nodup_toNamedFields (List.subset_append_right _ _)

@[simp] theorem Relation.ofJson?_toJson (x : Relation) : Relation.ofJson? x.toJson = some x := by
  have hparts : x.toJson.parts? ["kind", "from", "to"] =
      some [x.kind.toJson, .string x.source, .string x.target] :=
    (parts?_ofFields _ _).trans (fields?_ofFields (by simp) (List.Subset.refl _))
  rw [Relation.ofJson?, hparts]
  simp

/-! ## Documents -/

namespace Registry

/-- **A document loses nothing.**  The document of a registry that was built is an
object with an array of classes and an array of relations.  Every class is read
back as a record, whose full name is the one that stands beside its fields.
Registering these records in order meets no duplicate and gives the registry back,
and the relations are read back as those of this registry. -/
theorem Built.document_lossless {r : Registry} (h : r.Built) :
    ∃ classes relations records, r.toJson.fields? ["classes", "relations"] =
        some [.array classes, relations] ∧
      classes.mapM TypeRecord.ofJson? = some records ∧
      (∀ j ∈ classes, ∃ t, TypeRecord.ofJson? j = some t ∧
        j.fields? ["full_name"] = some [.string t.fullName]) ∧
      ofRecords records = .ok r ∧
      relations.list? Relation.ofJson? = some r.relations := by
  refine ⟨r.toList.map TypeRecord.toNamedJson, Json.ofList Relation.toJson r.relations, r.toList,
    fields?_ofFields (by simp) (List.Subset.refl _),
    list?_ofList fun t _ => t.ofJson?_toNamedJson, fun j hj => ?_, h.ofRecords_toList,
    list?_ofList fun x _ => x.ofJson?_toJson⟩
  obtain ⟨t, _, rfl⟩ := List.mem_map.1 hj
  exact ⟨t, t.ofJson?_toNamedJson, t.fields?_full_name⟩

/-- A class with an import, a final field and a constructor, and the class that it
extends. -/
def shopText : String :=
  "package shop; import util.Money; class Item extends Thing \x7b final Money price; " ++
    "Item(Money paid) \x7b int cents; \x7d \x7d class Thing \x7b \x7d"

/-- The document of the two classes is read back with the relation between them. -/
theorem document_lossless_shop :
    (empty.readText true shopText).1.Built ∧
      (empty.readText true shopText).1.names = ["shop.Item", "shop.Thing"] ∧
      ∃ classes relations records,
        (empty.readText true shopText).1.toJson.fields? ["classes", "relations"] =
          some [.array classes, relations] ∧
        classes.mapM TypeRecord.ofJson? = some records ∧
        (∀ j ∈ classes, ∃ t, TypeRecord.ofJson? j = some t ∧
          j.fields? ["full_name"] = some [.string t.fullName]) ∧
        ofRecords records = .ok (empty.readText true shopText).1 ∧
        relations.list? Relation.ofJson? =
          some [⟨.generalization, "shop.Item", "shop.Thing"⟩] := by
  have hbuilt : (empty.readText true shopText).1.Built := .readText .empty true shopText
  have hrelations : (empty.readText true shopText).1.relations =
      [⟨.generalization, "shop.Item", "shop.Thing"⟩] := by
    decide +kernel
  exact ⟨hbuilt, by decide +kernel, hrelations ▸ hbuilt.document_lossless⟩

end Registry

end JavaOutline
