import JavaOutline.Registry

/-!
# JavaOutline.Resolution

What a written type means inside a type.  The base name is looked for from
the type and then from each type around it: under its import if there is
one, otherwise in the package (or enclosing type) of that scope.  A name
with a dot that is found nowhere is finally looked for as a full name.

A type that is not found may simply not have been read, which is no error.
-/

namespace JavaOutline

namespace Registry

/-- The record of the type around a nested type.  The path of a top-level
type is a package, under which there is no record. -/
def outer? (r : Registry) (t : TypeRecord) : Option TypeRecord :=
  if t.packagePath = "" then none else r.get? t.packagePath

/-- A type and the types around it, innermost first.  Around a type are
only types of shorter paths. -/
def enclosing (r : Registry) (t : TypeRecord) : List TypeRecord :=
  match r.outer? t with
  | none => [t]
  | some outer =>
    if outer.packagePath.length < t.packagePath.length then t :: r.enclosing outer else [t]
termination_by t.packagePath.length

/-- The full name that a base name has when seen from one type. -/
def candidate (scope : TypeRecord) (base : String) : String :=
  (scope.imports.get? base).getD (qualify scope.packagePath base)

/-- The record that a written type means inside a type. -/
def resolve? (r : Registry) (scope : TypeRecord) (written : String) : Option TypeRecord :=
  let base := baseName written
  if base = "" then none
  else
    ((r.enclosing scope).findSome? fun t => r.get? (candidate t base)).or
      (if base.toList.contains '.' then r.get? base else none)

/-- The record that an optional written type means inside a type. -/
def resolveOptional? (r : Registry) (scope : TypeRecord) (written : Option String) :
    Option TypeRecord :=
  written.bind (r.resolve? scope)

/-- The record of the type named after `extends`. -/
def super? (r : Registry) (t : TypeRecord) : Option TypeRecord := r.resolveOptional? t t.superName

/-- The records of the types named after `implements`, in order. -/
def interfaces (r : Registry) (t : TypeRecord) : List TypeRecord :=
  t.interfaceNames.filterMap (r.resolve? t)

/-- A full name is longer than the path it begins with. -/
theorem length_packagePath_lt_fullName {t : TypeRecord} (h : t.fullName ≠ "") :
    t.packagePath.length < t.fullName.length := by
  rw [TypeRecord.fullName, qualify] at *
  split
  · rename_i hp
    rw [if_pos hp] at h
    rw [hp]
    exact Nat.pos_of_ne_zero fun hz => h (String.length_eq_zero_iff.1 hz)
  · have hdot : ".".length = 1 := rfl
    rw [String.length_append, String.length_append]
    omega

/-- In a valid registry the type around a nested type has the path of the
nested type as its full name. -/
theorem Valid.outer?_eq_some_iff {r : Registry} (h : r.Valid) {t outer : TypeRecord} :
    r.outer? t = some outer ↔
      t.packagePath ≠ "" ∧ outer ∈ r.toList ∧ outer.fullName = t.packagePath := by
  rw [outer?]
  split
  · next hp => simp [hp]
  · next hp => rw [h.get?_eq_some_iff, and_iff_right hp]

/-- Around a type are only types of shorter paths. -/
theorem Valid.length_packagePath_lt {r : Registry} (h : r.Valid) {t outer : TypeRecord}
    (ho : r.outer? t = some outer) : outer.packagePath.length < t.packagePath.length := by
  obtain ⟨hne, _, hname⟩ := h.outer?_eq_some_iff.1 ho
  exact hname ▸ length_packagePath_lt_fullName (hname ▸ hne)

/-- In a valid registry the types around a nested type go on from the type
around it. -/
theorem Valid.enclosing_eq {r : Registry} (h : r.Valid) {t outer : TypeRecord}
    (ho : r.outer? t = some outer) : r.enclosing t = t :: r.enclosing outer := by
  rw [enclosing, ho]
  exact if_pos (h.length_packagePath_lt ho)

theorem enclosing_of_outer?_eq_none {r : Registry} {t : TypeRecord} (ho : r.outer? t = none) :
    r.enclosing t = [t] := by
  rw [enclosing, ho]

end Registry

end JavaOutline
