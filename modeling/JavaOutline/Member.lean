import JavaOutline.Text.Split

/-!
# JavaOutline.Member

What a type declares: fields, methods and constructors, and the
parameters and local variables of the latter.

1. a *variable* has a name, a type and possibly `final`;
2. a *member* is a variable with an access level and possibly `static`;
   a field is no more than that, and an enum constant is a field without a
   type;
3. a *method* is a member, whose type is the return type, with parameters
   and the local variables of its body; a constructor is a method without
   a type.

Array brackets after a name belong to the type, so `int counts[]` and
`int[] counts` declare the same variable.
-/

namespace JavaOutline

/-! ## Access levels -/

/-- Who may use a member. -/
inductive Access where
  | publicAccess
  | privateAccess
  | protectedAccess
  /-- The level of a member declared without any. -/
  | packageAccess
  deriving DecidableEq, Repr, Inhabited

namespace Access

/-- The level that a keyword declares. -/
def ofKeyword? : String → Option Access
  | "public" => some .publicAccess
  | "private" => some .privateAccess
  | "protected" => some .protectedAccess
  | _ => none

/-- The name of a level. -/
def name : Access → String
  | .publicAccess => "public"
  | .privateAccess => "private"
  | .protectedAccess => "protected"
  | .packageAccess => "package"

/-- The sign of a level in class diagrams. -/
def symbol : Access → Char
  | .publicAccess => '+'
  | .privateAccess => '-'
  | .protectedAccess => '#'
  | .packageAccess => '~'

end Access

/-! ## Variables -/

/-- A name with a type, which constructors and enum constants lack. -/
structure Variable where
  name : String
  type : Option String
  isFinal : Bool
  deriving DecidableEq, Repr, Inhabited

/-- An array bracket. -/
def isArrayBracket (c : Char) : Bool := c == '[' || c == ']'

/-- The written form of an optional type after a name. -/
def typeSuffix : Option String → String
  | some type => " : " ++ type
  | none => ""

/-- The written form of the `final` flag after a name and its type. -/
def finalSuffix (isFinal : Bool) : String := if isFinal then " (final)" else ""

namespace Variable

/-- A variable as it is declared: brackets after the name go to the type,
and are lost where there is none. -/
def declare (written : String) (type : Option String) (isFinal : Bool) : Variable where
  name := String.ofList (Text.dropTrailing isArrayBracket written.toList)
  type := type.map (· ++ String.ofList (Text.takeTrailing isArrayBracket written.toList))
  isFinal

/-- The written form `name : type (final)`. -/
def text (v : Variable) : String := v.name ++ typeSuffix v.type ++ finalSuffix v.isFinal

end Variable

/-! ## Members -/

/-- A variable that belongs to a type. -/
structure Member extends Variable where
  access : Access
  isStatic : Bool
  deriving DecidableEq, Repr, Inhabited

namespace Member

/-- A member as it is declared. -/
def declare (access : Access) (written : String) (type : Option String)
    (isFinal isStatic : Bool) : Member where
  toVariable := Variable.declare written type isFinal
  access
  isStatic

/-- The sign of the access level and the name. -/
def heading (m : Member) : String := m.access.symbol.toString ++ " " ++ m.name

/-- The written form `+ name : type (final)`. -/
def text (m : Member) : String := m.heading ++ typeSuffix m.type ++ finalSuffix m.isFinal

end Member

/-! ## Methods -/

/-- A method or constructor. -/
structure Method extends Member where
  parameters : List Variable
  /-- The variables declared in the body, in the order of the text. -/
  locals : List Variable
  deriving DecidableEq, Repr, Inhabited

namespace Method

/-- Whether a method is a constructor, which has no return type. -/
def isConstructor (m : Method) : Bool := m.type.isNone

/-- The written form `+ name(a : int, b : int) : type (final)`. -/
def text (m : Method) : String :=
  m.heading ++ "(" ++ ", ".intercalate (m.parameters.map Variable.text) ++ ")" ++
    typeSuffix m.type ++ finalSuffix m.isFinal

end Method

end JavaOutline
