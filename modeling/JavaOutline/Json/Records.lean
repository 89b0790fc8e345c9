import JavaOutline.Json
import JavaOutline.Relation

/-!
# JavaOutline.Json.Records

The JSON form of records and relations.

1. every record is an object, and a name that is absent is null;
2. the fields of a member lie beside those of its variable in one flat
   object, and those of a method beside those of its member;
3. kinds and access levels are written by name.

Reading ignores unknown fields and takes null for a missing one, so only a
name that may be absent can be missing.  Names are taken as they are
written.  What is not flat may also be given as an array of its fields.
-/

namespace JavaOutline

open Json

/-! ## Names of a kind -/

/-- The access level of a name. -/
def Access.ofName? (name : String) : Option Access :=
  if name = "package" then some .packageAccess else Access.ofKeyword? name

@[simp] theorem Access.ofName?_name (access : Access) :
    Access.ofName? access.name = some access := by
  cases access <;> rfl

/-- The JSON form of an access level. -/
def Access.toJson (access : Access) : Json := .string access.name

/-- Read an access level. -/
def Access.ofJson? (j : Json) : Option Access := j.tag?.bind Access.ofName?

/-- The JSON form of a kind of types. -/
def TypeKind.toJson (kind : TypeKind) : Json := .string kind.keyword

/-- Read a kind of types. -/
def TypeKind.ofJson? (j : Json) : Option TypeKind := j.tag?.bind TypeKind.ofKeyword?

/-- The JSON form of a kind of relations. -/
def Relation.Kind.toJson (kind : Relation.Kind) : Json := .string kind.name

/-- Read a kind of relations. -/
def Relation.Kind.ofJson? (j : Json) : Option Relation.Kind := j.tag?.bind Relation.Kind.ofName?

/-! ## Variables and members -/

namespace Variable

/-- The names of the fields of a variable. -/
def fieldNames : List String := ["name", "type_name", "is_final"]

/-- The fields of a variable. -/
def toFields (v : Variable) : List (String × Json) :=
  [("name", .string v.name), ("type_name", Json.ofOption .string v.type),
    ("is_final", .boolean v.isFinal)]

/-- The JSON form of a variable. -/
def toJson (v : Variable) : Json := .ofFields v.toFields

/-- Read a variable from the values of its fields. -/
def ofParts? : List Json → Option Variable
  | [name, type, isFinal] => do
    some ⟨← name.string?, ← type.optional? Json.string?, ← isFinal.boolean?⟩
  | _ => none

/-- Read a variable. -/
def ofJson? (j : Json) : Option Variable := (j.parts? fieldNames).bind ofParts?

end Variable

namespace Member

/-- The fields of a member. -/
def toFields (m : Member) : List (String × Json) :=
  m.toVariable.toFields ++ [("accessibility", m.access.toJson), ("is_static", .boolean m.isStatic)]

/-- The JSON form of a member. -/
def toJson (m : Member) : Json := .ofFields m.toFields

/-- Read a member, from an object only. -/
def ofJson? (j : Json) : Option Member := do
  let value ← Variable.ofParts? (← j.fields? Variable.fieldNames)
  match ← j.fields? ["accessibility", "is_static"] with
  | [access, isStatic] => some ⟨value, ← Access.ofJson? access, ← isStatic.boolean?⟩
  | _ => none

end Member

namespace Method

/-- The JSON form of a method. -/
def toJson (m : Method) : Json :=
  .ofFields (m.toMember.toFields ++
    [("parameters", Json.ofList Variable.toJson m.parameters),
      ("variables", Json.ofList Variable.toJson m.locals)])

/-- Read a method, from an object only. -/
def ofJson? (j : Json) : Option Method := do
  let member ← Member.ofJson? j
  match ← j.fields? ["parameters", "variables"] with
  | [parameters, locals] =>
    some ⟨member, ← parameters.list? Variable.ofJson?, ← locals.list? Variable.ofJson?⟩
  | _ => none

end Method

/-! ## Import tables -/

/-- The JSON form of an import table. -/
def ImportTable.toJson (table : ImportTable) : Json :=
  .object (table.entries.map fun e => (e.1, .string e.2))

/-- Read an entry of an import table. -/
def ImportTable.entryOf? (field : String × Json) : Option (String × String) :=
  field.2.string?.map (field.1, ·)

/-- Read an import table. -/
def ImportTable.ofJson? : Json → Option ImportTable
  | .object fields => (fields.mapM ImportTable.entryOf?).map ImportTable.ofList
  | _ => none

/-! ## Records -/

namespace TypeRecord

/-- The names of the fields of a record, in the order of an array. -/
def fieldNames : List String :=
  ["package_path", "name", "kind", "super_class_name", "outer_class_name", "interface_names",
    "fields", "methods", "imports"]

/-- The fields of a record. -/
def toFields (t : TypeRecord) : List (String × Json) :=
  [("package_path", .string t.packagePath), ("name", .string t.name), ("kind", t.kind.toJson),
    ("super_class_name", Json.ofOption .string t.superName),
    ("outer_class_name", Json.ofOption .string t.outerName),
    ("interface_names", Json.ofList .string t.interfaceNames),
    ("fields", Json.ofList Member.toJson t.fields),
    ("methods", Json.ofList Method.toJson t.methods), ("imports", t.imports.toJson)]

/-- The JSON form of a record. -/
def toJson (t : TypeRecord) : Json := .ofFields t.toFields

/-- Read a record. -/
def ofJson? (j : Json) : Option TypeRecord := do
  match ← j.parts? fieldNames with
  | [packagePath, name, kind, superName, outerName, interfaceNames, fields, methods, imports] =>
    some {
      packagePath := ← packagePath.string?
      name := ← name.string?
      kind := ← TypeKind.ofJson? kind
      superName := ← superName.optional? Json.string?
      outerName := ← outerName.optional? Json.string?
      interfaceNames := ← interfaceNames.list? Json.string?
      fields := ← fields.list? Member.ofJson?
      methods := ← methods.list? Method.ofJson?
      imports := ← ImportTable.ofJson? imports }
  | _ => none

end TypeRecord

/-! ## Relations -/

namespace Relation

/-- The JSON form of a relation. -/
def toJson (r : Relation) : Json :=
  .ofFields [("kind", r.kind.toJson), ("from", .string r.source), ("to", .string r.target)]

/-- Read a relation. -/
def ofJson? (j : Json) : Option Relation := do
  match ← j.parts? ["kind", "from", "to"] with
  | [kind, source, target] =>
    some ⟨← Relation.Kind.ofJson? kind, ← source.string?, ← target.string?⟩
  | _ => none

end Relation

end JavaOutline
