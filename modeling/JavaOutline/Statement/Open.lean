import JavaOutline.Lexical.Initializer
import JavaOutline.Statement
import JavaOutline.Word

/-!
# JavaOutline.Statement.Open

Statements that have not ended yet, and what one character does to them.

A token is as much text as names one thing, or several things of one
type: a dotted name with its type arguments and array brackets
(`shop.Index<Key,Row[]>`) is one token, and so are the names that commas
separate outside parentheses (`width,height`).  A parenthesis is a token
of its own.  Three rules decide what stays together:

1. at a *boundary* (blanks, a comment, or a character that cannot be in a
   name) the token goes on if the next character joins it
   (`OpenStatement.joins`);
2. a `)` that is not followed by a body or `throws` closes the arguments of
   an enum constant, unless two tokens come before its `(`; the arguments
   are dropped and the constant goes on (`OpenStatement.closeParenthesis`);
3. after an initializer that ends in a comma, and after the body of an
   enum constant, the last token goes on (`OpenStatement.reopen`).

Annotations are dropped together with their arguments.
-/

namespace JavaOutline

open Text

/-- A statement that has not ended yet.  Its counts are integers of any
size; as a character changes them by one at most, 32 bits hold them in
texts of fewer than `2 ^ 31` characters. -/
structure OpenStatement where
  /-- The tokens that have ended. -/
  tokens : List String
  /-- The token being read; empty between tokens. -/
  current : String
  /-- Open parentheses less closed ones. -/
  parentheses : Int
  /-- Open angle brackets less closed ones. -/
  angles : Int
  deriving DecidableEq, Repr

namespace OpenStatement

/-- The statement of which nothing has been read. -/
def start : OpenStatement := ⟨[], "", 0, 0⟩

/-! ## Tokens -/

/-- Append a character to the token being read. -/
def push (s : OpenStatement) (c : Char) : OpenStatement := { s with current := s.current.push c }

/-- Whether the token being read is an annotation. -/
def atAnnotation (s : OpenStatement) : Bool := s.current.toList.head? == some '@'

/-- End the token being read; an annotation is dropped. -/
def endToken (s : OpenStatement) : OpenStatement :=
  if s.current = "" then s
  else if s.atAnnotation then { s with current := "" }
  else { s with tokens := s.tokens ++ [s.current], current := "" }

/-- Go on with the last token. -/
def reopen (s : OpenStatement) : OpenStatement :=
  { s with tokens := s.tokens.dropLast, current := s.current ++ s.tokens.getLast?.getD "" }

/-- Count a character that is an angle bracket. -/
def countAngle (s : OpenStatement) (c : Char) : OpenStatement :=
  if c = '<' then { s with angles := s.angles + 1 }
  else if c = '>' then { s with angles := s.angles - 1 }
  else s

/-- Whether the first token says nothing about what is declared. -/
def beginsInert (s : OpenStatement) : Bool := s.tokens.head?.any isInert

/-- The statement with its last token ended. -/
def finish (s : OpenStatement) (ending : Ending (List Char)) : Statement (List Char) :=
  ⟨s.endToken.tokens, ending⟩

/-! ## Boundaries -/

/-- The characters that cannot be in a name. -/
def interruptsName (c : Char) : Bool :=
  ['(', ')', '.', ',', '<', '>', '[', ']', '=', '{', '?'].contains c

/-- The characters that may join a token across a boundary. -/
def mayJoin (c : Char) : Bool := ['.', ',', '<', '>', '[', ']', '?'].contains c

/-- The characters that end what they join, such as type arguments. -/
def closesToken (c : Char) : Bool := ['>', ']', '?'].contains c

/-- Whether the token goes on with the character `c`, `ahead` being the
next character that is not blank.  A comma separates parameters inside
parentheses, unless it is inside type arguments.  A closing character
goes on only inside type arguments, before brackets, or before a comma
outside parentheses (`implements Sorted<T>, Closed`). -/
def joins (s : OpenStatement) (c : Char) (ahead : Option Char) : Bool :=
  ((c != ',' || s.parentheses == 0) && !closesToken c) || decide (0 < s.angles) ||
    ahead == some '[' || (c == '>' && ahead == some ',' && s.parentheses == 0)

/-- The statement and the text after a character that may join the token.
Type parameters after a modifier begin a token of their own, as in
`static <E> E first()`. -/
def joint (s : OpenStatement) (c : Char) (rest : List Char) : OpenStatement × List Char :=
  let counted := s.countAngle c
  if c = '<' ∧ mayPrecedeTypeParameters s.current then
    ({ counted.endToken with current := "<" }, skipBlanks rest)
  else if counted.joins c (skipBlanks rest).head? then (counted.push c, skipBlanks rest)
  else if closesToken c then ((counted.push c).endToken, rest)
  else (counted.endToken, rest)

/-- The statement and the text after a boundary at which the text goes on
with `c`. -/
def boundary (s : OpenStatement) (c : Char) (rest : List Char) : OpenStatement × List Char :=
  if mayJoin c then s.joint c rest
  else if c = '(' ∧ s.atAnnotation then (s.endToken, afterBracket '(' ')' 0 rest)
  else (s.endToken, c :: rest)

/-! ## Parentheses and ends -/

/-- Open a parenthesis. -/
def openParenthesis (s : OpenStatement) : OpenStatement :=
  { s with tokens := s.tokens ++ ["("], parentheses := s.parentheses + 1 }

/-- Whether the text after a `)` shows that a body may follow. -/
def opensBody (text : List Char) : Bool :=
  text.head? == some '{' || "throws".toList.isPrefixOf text

/-- Close a parenthesis, `ahead` being the text that follows after blanks.
Only the first token is kept, and goes on, if no body follows, the first
token is not inert and no `(` comes after two tokens. -/
def closeParenthesis (s : OpenStatement) (ahead : List Char) : OpenStatement :=
  let closed := { s with tokens := s.tokens ++ [")"], parentheses := s.parentheses - 1 }
  if opensBody ahead || closed.beginsInert || (closed.tokens.drop 2).contains "(" then closed
  else { closed with tokens := closed.tokens.take 1 }.reopen

/-- Whether a colon ends the statement: after `case` or `default`, and
after a single token. -/
def endsInLabel (s : OpenStatement) : Bool :=
  s.tokens.head? == some "case" || s.tokens.head? == some "default" || s.current == "default" ||
    s.tokens.length + (if s.current = "" then 0 else 1) == 1

/-- Whether the statement is a single name, which before a block can only
be an enum constant with a body of its own. -/
def isLoneName (s : OpenStatement) : Bool :=
  s.tokens.length == 1 && !s.beginsInert && s.tokens.head? != some "static"

end OpenStatement

end JavaOutline
