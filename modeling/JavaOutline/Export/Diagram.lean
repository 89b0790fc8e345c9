import JavaOutline.Relation

/-!
# JavaOutline.Export.Diagram

The class diagram of a registry as a graph description: one node for each
record, labelled with its kind and full name, and one edge for each
relation.  Nodes are numbered in the order of registration.
-/

namespace JavaOutline

/-- How a diagram is drawn.  A kind without a colour is drawn white, and a
relation without a style plainly. -/
structure DiagramStyle where
  fillColors : List (TypeKind × String)
  arrowStyles : List (Relation.Kind × String)
  /-- In which direction edges point, such as `BT` for upwards. -/
  direction : String
  /-- Whether nodes show the members of their types. -/
  withMembers : Bool
  deriving DecidableEq, Repr

/-- The usual style: edges upwards, without members. -/
def DiagramStyle.usual : DiagramStyle where
  fillColors := [(.classType, "#FFE082"), (.interfaceType, "#FFAB91"), (.enumType, "#CE93D8")]
  arrowStyles :=
    [(.generalization, "arrowhead=empty"), (.realization, "arrowhead=empty, style=dashed"),
      (.association, "arrowhead=vee"), (.dependency, "arrowhead=vee, style=dashed")]
  direction := "BT"
  withMembers := false

namespace Diagram

/-! ## Labels -/

/-- A character in a label: quotes, backslashes and angle brackets are
escaped, and a line break is written as `\n`. -/
def escapeChar (c : Char) : List Char :=
  if c = '\\' ∨ c = '"' ∨ c = '<' ∨ c = '>' then ['\\', c]
  else if c = '\n' then ['\\', 'n']
  else [c]

/-- A text in a label. -/
def escape (s : String) : String := String.ofList (s.toList.flatMap escapeChar)

/-- The texts of the fields and methods of a type. -/
def memberTexts (t : TypeRecord) : List String :=
  t.fields.map Member.text ++ t.methods.map Method.text

/-- The label of a node; members stand in lines of their own, flush left. -/
def label (style : DiagramStyle) (t : TypeRecord) : String :=
  "«" ++ t.kind.keyword ++ "»\\n" ++ escape t.fullName ++
    if style.withMembers then
      String.join ((memberTexts t).map fun text => "\\l" ++ escape text) ++ "\\l"
    else ""

/-! ## Nodes and edges -/

/-- The name of the node of a position. -/
def nodeName (i : Nat) : String := "n" ++ toString i

/-- The line of a node. -/
def nodeLine (style : DiagramStyle) (t : TypeRecord) (i : Nat) : String :=
  "    " ++ nodeName i ++ " [label=\"" ++ label style t ++ "\", fillcolor=\"" ++
    (style.fillColors.lookup t.kind).getD "#FFFFFF" ++ "\"];\n"

/-- The line of the edge between two positions. -/
def edgeLine (style : DiagramStyle) (kind : Relation.Kind) (i j : Nat) : String :=
  "    " ++ nodeName i ++ " -> " ++ nodeName j ++ " [label=\"" ++ kind.name ++ "\"" ++
    ((style.arrowStyles.lookup kind).map (", " ++ ·)).getD "" ++ "];\n"

/-- The line of a relation between registered types. -/
def relationLine? (r : Registry) (style : DiagramStyle) (relation : Relation) : Option String := do
  let source ← r.position? relation.source
  let target ← r.position? relation.target
  some (edgeLine style relation.kind source target)

end Diagram

/-- The class diagram of a registry. -/
def Registry.diagram (r : Registry) (style : DiagramStyle) : String :=
  "digraph class_view \x7b\n    rankdir=" ++ style.direction ++
    ";\n    node [shape=box, style=filled];\n\n" ++
    String.join (r.toList.mapIdx fun i t => Diagram.nodeLine style t i) ++ "\n" ++
    String.join (r.relations.filterMap (Diagram.relationLine? r style)) ++ "\x7d\n"

end JavaOutline
