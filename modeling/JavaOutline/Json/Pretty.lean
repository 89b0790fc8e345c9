import JavaOutline.Json

/-!
# JavaOutline.Json.Pretty

The text of a JSON value, spread over lines with two spaces for each level
of nesting.  Empty arrays and objects stay on their line.  Strings keep all
characters but quotes, backslashes and control characters below U+0020.
-/

namespace JavaOutline

namespace Json

/-! ## Strings -/

/-- The escape of a character in a string, if it needs one. -/
def escape? (c : Char) : Option String :=
  if c = '"' then some "\\\""
  else if c = '\\' then some "\\\\"
  else if c = '\n' then some "\\n"
  else if c = '\r' then some "\\r"
  else if c = '\t' then some "\\t"
  else if c.toNat = 0x8 then some "\\b"
  else if c.toNat = 0xC then some "\\f"
  else if c.toNat < 0x20 then
    some ("\\u00" ++ String.ofList [Nat.digitChar (c.toNat / 16), Nat.digitChar (c.toNat % 16)])
  else none

/-- A string in quotes. -/
def quote (s : String) : String :=
  s.toList.foldl (fun text c => match escape? c with
    | some escaped => text ++ escaped
    | none => text.push c) "\"" ++ "\""

/-! ## Values -/

/-- A new line at a level of nesting. -/
def newline (level : Nat) : String := "\n" ++ String.ofList (List.replicate (2 * level) ' ')

mutual
/-- The text of a value at a level of nesting. -/
def prettyAt (level : Nat) : Json → String
  | .null => "null"
  | .boolean b => if b then "true" else "false"
  | .count n => toString n
  | .number text => text
  | .string s => quote s
  | .array [] => "[]"
  | .array (first :: rest) =>
    "[" ++ newline (level + 1) ++ prettyAt (level + 1) first ++ prettyElements (level + 1) rest ++
      newline level ++ "]"
  | .object [] => "\x7b\x7d"
  | .object ((name, value) :: rest) =>
    "\x7b" ++ newline (level + 1) ++ quote name ++ ": " ++ prettyAt (level + 1) value ++
      prettyFields (level + 1) rest ++ newline level ++ "\x7d"

/-- The texts of the further elements of an array, each on a line. -/
def prettyElements (level : Nat) : List Json → String
  | [] => ""
  | element :: rest => "," ++ newline level ++ prettyAt level element ++ prettyElements level rest

/-- The texts of the further fields of an object, each on a line. -/
def prettyFields (level : Nat) : List (String × Json) → String
  | [] => ""
  | (name, value) :: rest =>
    "," ++ newline level ++ quote name ++ ": " ++ prettyAt level value ++ prettyFields level rest
end

/-- The text of a value. -/
def pretty (j : Json) : String := j.prettyAt 0

end Json

end JavaOutline
