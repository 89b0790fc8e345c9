import JavaOutline.Statement.Scan

/-!
# JavaOutline.Statement.Position

All statements of a text one after the other, and places in a text as
positions.  The position of an end of a text is the number of characters
before it, so positions lie between 0 and the length of the text.
-/

namespace JavaOutline

/-- The statements of a text, each with the text that follows it.  Blocks
are passed over. -/
def statements (text : List Char) : List (Statement (List Char) × List Char) :=
  match _ : scan text with
  | none => []
  | some (statement, rest) => (statement, rest) :: statements rest
termination_by text.length
decreasing_by exact length_lt_of_scan ‹_›

/-- The position in a text of one of its ends. -/
def positionOf (text rest : List Char) : Nat := text.length - rest.length

/-- A statement and the text that follows it, seen with positions. -/
def withPositions (text : List Char) (s : Statement (List Char) × List Char) :
    Statement Nat × Nat :=
  (s.1.map (positionOf text), positionOf text s.2)

/-- The first statement from a position on, and the position that follows
it. -/
def statementAt (text : List Char) (position : Nat) : Option (Statement Nat × Nat) :=
  (scan (text.drop position)).map (withPositions text)

/-- The position of what remains of a text after a part of it. -/
theorem positionOf_append (before rest : List Char) :
    positionOf (before ++ rest) rest = before.length := by
  simp [positionOf]

end JavaOutline
