import JavaOutline.ImportTable
import JavaOutline.Member
import JavaOutline.Name

/-!
# JavaOutline.TypeRecord

The record of one type declaration.  Other types are kept as the names
written in the text, since they may lie outside of what was read.

A record starts at its full name and grows with the declarations of its
body.  The body of a method is read into a record of its own,
`TypeRecord.locals`, of which only the variables are kept.
-/

namespace JavaOutline

/-! ## Kinds of types -/

/-- What kind of type is declared. -/
inductive TypeKind where
  | classType
  | interfaceType
  | enumType
  deriving DecidableEq, Repr, Inhabited

namespace TypeKind

/-- The kind that a keyword declares. -/
def ofKeyword? : String → Option TypeKind
  | "class" => some .classType
  | "interface" => some .interfaceType
  | "enum" => some .enumType
  | _ => none

/-- The keyword of a kind. -/
def keyword : TypeKind → String
  | .classType => "class"
  | .interfaceType => "interface"
  | .enumType => "enum"

@[simp] theorem ofKeyword?_keyword (kind : TypeKind) : ofKeyword? kind.keyword = some kind := by
  cases kind <;> rfl

end TypeKind

/-! ## Records -/

/-- The record of one class, interface or enum. -/
structure TypeRecord where
  /-- The package, or the full name of the enclosing type. -/
  packagePath : String
  name : String
  kind : TypeKind
  /-- The name after `extends`, as written. -/
  superName : Option String
  /-- The simple name of the enclosing type. -/
  outerName : Option String
  /-- The names after `implements`, as written. -/
  interfaceNames : List String
  fields : List Member
  methods : List Method
  /-- What simple names mean inside the type. -/
  imports : ImportTable
  deriving DecidableEq, Inhabited

namespace TypeRecord

/-- The name under which a record is registered. -/
def fullName (t : TypeRecord) : String := qualify t.packagePath t.name

/-- The record of a type of which only the full name is known yet. -/
def start (full : String) (kind : TypeKind) : TypeRecord where
  packagePath := (splitFullName full).1
  name := (splitFullName full).2
  kind
  superName := none
  outerName := none
  interfaceNames := []
  fields := []
  methods := []
  imports := .empty

/-- Make a simple name mean a full name inside the type. -/
def addImport (t : TypeRecord) (short full : String) : TypeRecord :=
  { t with imports := t.imports.insert short full }

/-- Take over every entry of a table. -/
def addImports (t : TypeRecord) (table : ImportTable) : TypeRecord :=
  { t with imports := t.imports.overlay table }

/-- Set the name after `extends`. -/
def withSuper (t : TypeRecord) (written : String) : TypeRecord :=
  { t with superName := some written }

/-- Set the name of the enclosing type. -/
def withOuter (t : TypeRecord) (name : String) : TypeRecord := { t with outerName := some name }

/-- Append a name after `implements`. -/
def addInterface (t : TypeRecord) (written : String) : TypeRecord :=
  { t with interfaceNames := t.interfaceNames ++ [written] }

/-- Append a field. -/
def addField (t : TypeRecord) (field : Member) : TypeRecord :=
  { t with fields := t.fields ++ [field] }

/-- Append a method. -/
def addMethod (t : TypeRecord) (method : Method) : TypeRecord :=
  { t with methods := t.methods ++ [method] }

/-- The record into which the body of a method is read.  Its name cannot
be that of a type. -/
def locals (imports : ImportTable) : TypeRecord :=
  (start "<locals>" .classType).addImports imports

/-- The fields as plain variables. -/
def fieldVariables (t : TypeRecord) : List Variable := t.fields.map Member.toVariable

end TypeRecord

end JavaOutline
