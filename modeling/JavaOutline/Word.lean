import JavaOutline.Text.Letter

/-!
# JavaOutline.Word

Words of Java text: those that say nothing about the structure of a
program, those that may stand before type parameters, and identifiers.
-/

namespace JavaOutline

/-- Words that say nothing about what is declared: control flow,
exception handling, and the modifiers that do not change what a member
is.  In a method body a statement that begins with one declares nothing;
elsewhere such a word is passed over. -/
def inertWords : List String :=
  ["abstract", "assert", "break", "case", "continue", "default", "do", "else", "finally", "for",
    "if", "native", "new", "return", "strictfp", "switch", "synchronized", "throw", "transient",
    "try", "volatile", "while"]

/-- Whether a word says nothing about what is declared. -/
def isInert (word : String) : Bool := inertWords.contains word

/-- The words that may stand before the type parameters of a method. -/
def mayPrecedeTypeParameters (word : String) : Bool :=
  ["public", "protected", "private", "static", "final", "default"].contains word || isInert word

/-- Whether a character may begin an identifier. -/
def beginsIdentifier (c : Char) : Bool := Text.isLetter c || c == '_' || c == '$'

/-- Whether a character may follow in an identifier. -/
def continuesIdentifier (c : Char) : Bool :=
  Text.isLetter c || Text.isNumeral c || c == '_' || c == '$'

/-- Whether characters make up an identifier. -/
def isIdentifier : List Char → Bool
  | [] => false
  | c :: rest => beginsIdentifier c && rest.all continuesIdentifier

end JavaOutline
