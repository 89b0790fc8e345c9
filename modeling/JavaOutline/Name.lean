import JavaOutline.Text.Blank
import JavaOutline.Text.Split

/-!
# JavaOutline.Name

Names of types.  A full name joins a path (a package, or the full name of
the enclosing type) and a simple name with a dot.  A written type such as
`Index<K, V>[]` is reduced to the name under which a declaration could be
found by `baseName`.
-/

namespace JavaOutline

/-- A path and a simple name joined by a dot; without a path, the name
alone. -/
def qualify (path name : String) : String := if path = "" then name else path ++ "." ++ name

/-- What stands before the last dot of a full name, and the simple name
after it. -/
def splitFullName (full : String) : String × String :=
  match Text.cutLast '.' full.toList with
  | some (path, name) => (String.ofList path, String.ofList name)
  | none => ("", full)

/-- The name that a written type has without type arguments, array
brackets, the dots of a variable number of arguments, and blanks around. -/
def baseName (written : String) : String :=
  let name := written.toList.takeWhile fun c => c != '<' && c != '['
  String.ofList (Text.trimBlanks (Text.dropTrailing (· == '.') name))

@[simp] theorem qualify_empty (name : String) : qualify "" name = name := rfl

theorem qualify_of_ne_empty {path : String} (h : path ≠ "") (name : String) :
    qualify path name = path ++ "." ++ name := by
  simp [qualify, h]

/-- A simple name that holds no dot is found again after the last dot. -/
theorem splitFullName_qualify {path name : String} (h : '.' ∉ name.toList) :
    splitFullName (qualify path name) = (path, name) := by
  by_cases hp : path = ""
  · rw [hp, qualify_empty, splitFullName, Text.cutLast_eq_none_iff.2 h]
  · have htext : (path ++ "." ++ name).toList = path.toList ++ '.' :: name.toList := by simp
    rw [qualify_of_ne_empty hp, splitFullName, htext, Text.cutLast_append h]
    simp

end JavaOutline
