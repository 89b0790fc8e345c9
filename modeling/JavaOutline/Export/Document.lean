import JavaOutline.Json.Pretty
import JavaOutline.Json.Records

/-!
# JavaOutline.Export.Document

The JSON document of a registry: its records, each with its full name
beside its own fields, and the relations between them.
-/

namespace JavaOutline

/-- The JSON form of a record together with its full name. -/
def TypeRecord.toNamedJson (t : TypeRecord) : Json :=
  .ofFields (t.toFields ++ [("full_name", .string t.fullName)])

namespace Registry

/-- The document as a value. -/
def toJson (r : Registry) : Json :=
  .ofFields [("classes", Json.ofList TypeRecord.toNamedJson r.toList),
    ("relations", Json.ofList Relation.toJson r.relations)]

/-- The document as a text. -/
def document (r : Registry) : String := r.toJson.pretty

end Registry

end JavaOutline
