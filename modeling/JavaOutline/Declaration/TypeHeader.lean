import JavaOutline.TypeRecord

/-!
# JavaOutline.Declaration.TypeHeader

The header of a type declaration: its kind, its name, and the names after
`extends` and `implements`.  Type parameters may be spread over several
tokens, as in `Index<K extends Ordered<K>>`; they end where as many angle
brackets are closed as were opened.
-/

namespace JavaOutline

/-! ## Angle brackets -/

/-- The number of open angle brackets after one more character. -/
def angleDepth (depth : Int) (c : Char) : Int :=
  if c = '<' then depth + 1 else if c = '>' then depth - 1 else depth

/-- Opening angle brackets less closing ones. -/
def unclosedAngles (token : String) : Int := token.toList.foldl angleDepth 0

/-- The tokens after type parameters of which some brackets are open. -/
def afterTypeParameters (opened : Int) : List String → List String
  | [] => []
  | token :: rest =>
    if 0 < opened then afterTypeParameters (opened + unclosedAngles token) rest else token :: rest

theorem length_afterTypeParameters_le (opened : Int) (tokens : List String) :
    (afterTypeParameters opened tokens).length ≤ tokens.length := by
  induction tokens generalizing opened with
  | nil => exact Nat.le_refl _
  | cons token rest ih =>
    rw [afterTypeParameters]
    split
    · exact Nat.le_succ_of_le (ih _)
    · exact Nat.le_refl _

/-! ## Lists of types -/

/-- The pieces of a text between the commas outside type arguments, of
which `depth` are open. -/
def outerPieces (depth : Int) : List Char → List (List Char)
  | [] => [[]]
  | c :: rest =>
    if c = ',' ∧ depth = 0 then [] :: outerPieces depth rest
    else
      match outerPieces (angleDepth depth c) rest with
      | [] => [[c]]
      | piece :: more => (c :: piece) :: more

/-- The types of a written list such as `Closed,Index<K,V>`. -/
def typeList (written : String) : List String :=
  ((outerPieces 0 written.toList).filter fun piece => !piece.isEmpty).map String.ofList

/-- The types listed after a keyword, and the tokens that follow; without
the keyword there are none. -/
def typesAfter (keyword : String) : List String → List String × List String
  | word :: written :: rest =>
    if word = keyword then (typeList written, rest) else ([], word :: written :: rest)
  | tokens => ([], tokens)

/-! ## Headers -/

/-- What a type declaration says before its body. -/
structure TypeHeader where
  kind : TypeKind
  name : String
  superName : Option String
  interfaceNames : List String
  deriving DecidableEq, Repr

/-- The header of a type from the tokens after its keyword.  An interface
may extend several types: the first counts as its super type, the others
as its interfaces. -/
def TypeHeader.ofTokens? (kind : TypeKind) : List String → Option TypeHeader
  | [] => none
  | declared :: rest =>
    let name := declared.toList.takeWhile (· != '<')
    let extended := typesAfter "extends" (afterTypeParameters (unclosedAngles declared) rest)
    let implemented := typesAfter "implements" extended.2
    if name.isEmpty then none
    else
      some {
        kind
        name := String.ofList name
        superName := extended.1.head?
        interfaceNames := extended.1.tail ++ implemented.1 }

end JavaOutline
