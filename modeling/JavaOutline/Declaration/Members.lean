import JavaOutline.Declaration
import JavaOutline.Word

/-!
# JavaOutline.Declaration.Members

The members that a statement declares after its modifiers: constants,
fields or local variables, methods and constructors.
-/

namespace JavaOutline

/-! ## Parameters -/

/-- The two parts of a token such as `long...amounts`: the type with its
dots, and the name. -/
def cutAfterDots : List Char → Option (List Char × List Char)
  | [] => none
  | '.' :: '.' :: '.' :: name => some (['.', '.', '.'], name)
  | c :: rest => (cutAfterDots rest).map fun cut => (c :: cut.1, cut.2)

/-- The parameters in the tokens up to the next `)`.  Each has a type and
a name, in two tokens or joined by three dots, and may be `final`, which
`isFinal` says has been read. -/
def parameters (isFinal : Bool) : List String → List Variable
  | [] => []
  | type :: rest =>
    if !isFinal && type == ")" then []
    else if !isFinal && type == "final" then parameters true rest
    else
      match cutAfterDots type.toList with
      | some (type, name) =>
        .declare (String.ofList name) (some (String.ofList type)) isFinal :: parameters false rest
      | none =>
        match rest with
        | [] => []
        | name :: rest => .declare name (some type) isFinal :: parameters false rest

/-! ## Modifiers -/

/-- The modifiers that count for a member. -/
structure Modifiers where
  access : Access
  isFinal : Bool
  isStatic : Bool
  deriving DecidableEq, Repr

/-- A member without modifiers. -/
def Modifiers.absent : Modifiers := ⟨.packageAccess, false, false⟩

/-- A member with its modifiers. -/
def Modifiers.member (m : Modifiers) (written : String) (type : Option String) : Member :=
  .declare m.access written type m.isFinal m.isStatic

/-! ## Lists of names -/

/-- The names of a written list such as `a,b[],c`. -/
def nameList (written : String) : List String :=
  (Text.pieces ',' written.toList).map String.ofList

/-- Whether a name followed by array brackets can be declared. -/
def isDeclarable (written : String) : Bool :=
  isIdentifier (Text.dropTrailing isArrayBracket written.toList)

/-- The constants of an enum: public, and without a type. -/
def constants (written : String) : List Member :=
  ((nameList written).filter (· != "")).map fun name => .declare .publicAccess name none false false

/-- The variables of one type that a list of names declares. -/
def Modifiers.variablesOf (m : Modifiers) (type written : String) : List Member :=
  ((nameList written).filter isDeclarable).map fun name => m.member name (some type)

/-! ## Members -/

/-- What the tokens after the modifiers declare: `name (…)` a constructor,
`type name (…)` a method, and `type names` variables.  One token alone is
left to `constants`. -/
def Modifiers.declare (m : Modifiers) : List String → Declaration
  | name :: "(" :: rest => .method ⟨m.member name none, parameters false rest, []⟩
  | type :: name :: "(" :: rest => .method ⟨m.member name (some type), parameters false rest, []⟩
  | type :: names :: _ => .fields (m.variablesOf type names)
  | _ => .nothing

end JavaOutline
