import JavaOutline.Declaration.TypeHeader

/-!
# JavaOutline.Declaration

What a statement can declare: a type, of which it is the header, fields
or local variables, or a method.
-/

namespace JavaOutline

/-- What a statement declares. -/
inductive Declaration where
  | nothing
  | type (header : TypeHeader)
  /-- Constants, fields, or local variables. -/
  | fields (members : List Member)
  /-- A method or constructor, whose local variables are not known. -/
  | method (method : Method)
  deriving DecidableEq, Repr

end JavaOutline
