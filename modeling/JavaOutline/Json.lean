import JavaOutline.Entries

/-!
# JavaOutline.Json

JSON values.  The numbers that are written and read are counts; any other
number is kept as its text.  Objects written here have their names in
ascending order (`Json.ofFields`).

Reading a value of some type is a partial function, which fails if the
JSON value has not the form of the type.
-/

namespace JavaOutline

/-- A JSON value. -/
inductive Json where
  | null
  | boolean (b : Bool)
  /-- A number written with digits only. -/
  | count (n : Nat)
  /-- Any other number, as it is written. -/
  | number (text : String)
  | string (s : String)
  | array (elements : List Json)
  | object (fields : List (String × Json))
  deriving Inhabited

namespace Json

/-! ## Writing values -/

/-- The object of some fields, ordered by name. -/
def ofFields (fields : List (String × Json)) : Json := .object (Entries.ofList fields)

/-- A value or null. -/
def ofOption {α : Type} (toJson : α → Json) : Option α → Json
  | none => .null
  | some a => toJson a

/-- An array of values. -/
def ofList {α : Type} (toJson : α → Json) (values : List α) : Json := .array (values.map toJson)

/-! ## Reading values -/

/-- The characters of a string. -/
def string? : Json → Option String
  | .string s => some s
  | _ => none

/-- A truth value. -/
def boolean? : Json → Option Bool
  | .boolean b => some b
  | _ => none

/-- The greatest count that can be read or written. -/
def maxCount : Nat := 0xFFFFFFFFFFFFFFFF

/-- A count that is not above the greatest. -/
def count? : Json → Option Nat
  | .count n => if n ≤ maxCount then some n else none
  | _ => none

/-- The values of an array, all of one type. -/
def list? {α : Type} (ofJson? : Json → Option α) : Json → Option (List α)
  | .array elements => elements.mapM ofJson?
  | _ => none

/-- A value of some type, or null. -/
def optional? {α : Type} (ofJson? : Json → Option α) : Json → Option (Option α)
  | .null => some none
  | j => (ofJson? j).map some

/-- The name of a value without contents: a string, or an object with the
name as its only key and null. -/
def tag? : Json → Option String
  | .string s => some s
  | .object [(name, .null)] => some name
  | _ => none

/-- The values under some names of an object, null where there is none. -/
def fields? (names : List String) : Json → Option (List Json)
  | .object fields => some (names.map fun name => (Entries.lookup name fields).getD .null)
  | _ => none

/-- The values under some names of an object, or the elements of an array
of as many. -/
def parts? (names : List String) : Json → Option (List Json)
  | .array elements => if elements.length = names.length then some elements else none
  | j => j.fields? names

@[simp] theorem string?_string (s : String) : (Json.string s).string? = some s := rfl

@[simp] theorem boolean?_boolean (b : Bool) : (Json.boolean b).boolean? = some b := rfl

@[simp] theorem tag?_string (s : String) : (Json.string s).tag? = some s := rfl

/-- A count that can be written is read back. -/
theorem count?_count {n : Nat} (h : n ≤ maxCount) : (Json.count n).count? = some n := if_pos h

/-- A list of values is read back as each of them is. -/
theorem list?_ofList_map {α : Type} {toJson : α → Json} {ofJson? : Json → Option α} {f : α → α}
    {values : List α} (h : ∀ a ∈ values, ofJson? (toJson a) = some (f a)) :
    (ofList toJson values).list? ofJson? = some (values.map f) := by
  rw [ofList, list?, mapM_map_eq_some h]

/-- A list of values is read back if each of them is. -/
theorem list?_ofList {α : Type} {toJson : α → Json} {ofJson? : Json → Option α}
    {values : List α} (h : ∀ a ∈ values, ofJson? (toJson a) = some a) :
    (ofList toJson values).list? ofJson? = some values := by
  rw [list?_ofList_map (f := id) h, List.map_id]

/-- A value that may be absent is read back, if none is written as null. -/
theorem optional?_ofOption {α : Type} {toJson : α → Json} {ofJson? : Json → Option α}
    {value : Option α} (hnull : ∀ a, toJson a ≠ .null)
    (h : ∀ a ∈ value, ofJson? (toJson a) = some a) :
    (ofOption toJson value).optional? ofJson? = some value := by
  cases value with
  | none => rfl
  | some a =>
    rw [ofOption, optional?, h a rfl]
    · rfl
    · exact hnull a

/-- Some fields of an object are read back by their names, if the names of all
its fields are distinct. -/
theorem fields?_ofFields {fields part : List (String × Json)}
    (h : (fields.map Prod.fst).Nodup) (hpart : part ⊆ fields) :
    (ofFields fields).fields? (part.map Prod.fst) = some (part.map Prod.snd) := by
  rw [ofFields, fields?, List.map_map]
  congr 1
  refine List.map_congr_left fun e he => ?_
  rw [Function.comp, Entries.lookup_ofList h, Entries.lookup_of_mem h (hpart he), Option.getD_some]

@[simp] theorem parts?_ofFields (fields : List (String × Json)) (names : List String) :
    (ofFields fields).parts? names = (ofFields fields).fields? names := rfl

end Json

end JavaOutline
