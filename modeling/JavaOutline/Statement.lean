/-!
# JavaOutline.Statement

The units into which a text is cut.  A statement is a list of tokens and
what ended it; places in the text are of any type, so that one statement
can be seen with the texts that follow (`List Char`) or with positions
(`Nat`).
-/

namespace JavaOutline

/-- What ended a statement. -/
inductive Ending (place : Type) where
  /-- A `;`, or the `;` after an initializer. -/
  | semicolon
  /-- A `{` outside parentheses: where the block begins inside its
  brace, and where the text goes on after it. -/
  | block (body after : place)
  /-- A `}`. -/
  | closeBrace
  /-- The `:` of a label. -/
  | label
  /-- The end of the text inside an initializer. -/
  | endOfText
  deriving DecidableEq, Repr

/-- The ending with its places seen otherwise. -/
def Ending.map {place other : Type} (f : place → other) : Ending place → Ending other
  | .semicolon => .semicolon
  | .block body after => .block (f body) (f after)
  | .closeBrace => .closeBrace
  | .label => .label
  | .endOfText => .endOfText

/-- The tokens of a statement and what ended it. -/
structure Statement (place : Type) where
  tokens : List String
  ending : Ending place
  deriving DecidableEq, Repr

/-- The statement with its places seen otherwise. -/
def Statement.map {place other : Type} (f : place → other) (s : Statement place) :
    Statement other :=
  ⟨s.tokens, s.ending.map f⟩

end JavaOutline
