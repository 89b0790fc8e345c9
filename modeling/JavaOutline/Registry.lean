import JavaOutline.Located
import JavaOutline.TypeRecord

/-!
# JavaOutline.Registry

Finished records under their full names.  Records are only ever appended:
the first record of a name stays, a later one is rejected.  Beside the
records stands an index from full names to positions in them.
-/

namespace JavaOutline

/-- Finished records, in the order of registration, and where each is. -/
structure Registry where
  records : Array TypeRecord
  index : Std.TreeMap String Nat

/-- Why a registry refuses something or cannot be written. -/
inductive RegistryFailure where
  /-- The full name is taken. -/
  | duplicate (full : String)
  /-- A record cannot be written; `cause` is the text of a deeper error. -/
  | serialization (message : String) (cause : Option String)
  deriving DecidableEq, Repr

namespace RegistryFailure

/-- The text of a failure. -/
def message : RegistryFailure → String
  | .duplicate full => "Class already registered: " ++ full
  | .serialization message _ => "Serialization error: " ++ message

/-- The text of the error behind a failure. -/
def cause : RegistryFailure → Option String
  | .duplicate _ => none
  | .serialization _ cause => cause

end RegistryFailure

namespace Registry

/-- The registry without records. -/
def empty : Registry := ⟨#[], ∅⟩

instance : Inhabited Registry := ⟨empty⟩

/-! ## Looking up -/

/-- Whether a full name is taken. -/
def contains (r : Registry) (full : String) : Bool := r.index.contains full

/-- The position of the record under a full name. -/
def position? (r : Registry) (full : String) : Option Nat := r.index[full]?

/-- The record under a full name. -/
def get? (r : Registry) (full : String) : Option TypeRecord :=
  (r.position? full).bind fun i => r.records[i]?

/-- The records in the order of registration. -/
def toList (r : Registry) : List TypeRecord := r.records.toList

/-- The full names in the order of registration. -/
def names (r : Registry) : List String := r.toList.map TypeRecord.fullName

/-- The number of records. -/
def size (r : Registry) : Nat := r.records.size

/-! ## Registering -/

/-- Append a record under a name that is not taken. -/
def append (r : Registry) (record : TypeRecord) : Registry :=
  ⟨r.records.push record, r.index.insert record.fullName r.records.size⟩

/-- Register a record, unless its full name is taken. -/
def register (r : Registry) (record : TypeRecord) : Except RegistryFailure Registry :=
  if r.contains record.fullName then .error (.duplicate record.fullName) else .ok (r.append record)

/-- What registering several records has come to. -/
structure Registration where
  registry : Registry
  /-- The full names that were free, in order. -/
  accepted : List String
  /-- The full names that were taken, in order. -/
  skipped : List String

/-- Register one more record, or skip it if its full name is taken. -/
def Registration.add (a : Registration) (record : TypeRecord) : Registration :=
  match a.registry.register record with
  | .ok registry => { a with registry, accepted := a.accepted ++ [record.fullName] }
  | .error _ => { a with skipped := a.skipped ++ [record.fullName] }

/-- Register records one after the other, skipping those whose full names
are taken. -/
def registerAll (r : Registry) (records : List TypeRecord) : Registration :=
  records.foldl Registration.add ⟨r, [], []⟩

/-- Append the records of another registry, and return the full names that
were taken. -/
def merge (r other : Registry) : Registry × List String :=
  let a := r.registerAll other.toList
  (a.registry, a.skipped)

/-- Whether a registry says the truth: each position in the index is that
of the record of the name, and each record is in the index. -/
def Valid (r : Registry) : Prop :=
  ∀ full i, r.position? full = some i ↔
    ∃ record, r.records[i]? = some record ∧ record.fullName = full

/-! ## Laws -/

@[simp] theorem toList_empty : empty.toList = [] := rfl

@[simp] theorem toList_append (r : Registry) (record : TypeRecord) :
    (r.append record).toList = r.toList ++ [record] := by
  simp [append, toList]

@[simp] theorem position?_append (r : Registry) (record : TypeRecord) (full : String) :
    (r.append record).position? full =
      if record.fullName = full then some r.size else r.position? full := by
  simp [append, position?, size, Std.TreeMap.getElem?_insert]

theorem contains_eq_isSome (r : Registry) (full : String) :
    r.contains full = (r.position? full).isSome := by
  simp [contains, position?]

/-- The registry without records is valid. -/
theorem valid_empty : empty.Valid :=
  Located.empty fun full => by simp [empty, position?]

/-- The index of a valid registry is that of the records by full name. -/
theorem Valid.located {r : Registry} (h : r.Valid) :
    Located TypeRecord.fullName r.records r.position? := h

/-- In a valid registry a name is taken if a record has it. -/
theorem Valid.contains_iff {r : Registry} (h : r.Valid) {full : String} :
    r.contains full = true ↔ full ∈ r.names := by
  rw [contains_eq_isSome]
  exact h.located.isSome_iff

/-- In a valid registry the record under a full name is the one that has it. -/
theorem Valid.get?_eq_some_iff {r : Registry} (h : r.Valid) {full : String} {t : TypeRecord} :
    r.get? full = some t ↔ t ∈ r.toList ∧ t.fullName = full :=
  h.located.lookup_eq_some_iff

/-- In a valid registry records of one full name are the same. -/
theorem Valid.eq_of_fullName_eq {r : Registry} (h : r.Valid) {t u : TypeRecord}
    (ht : t ∈ r.toList) (hu : u ∈ r.toList) (hname : t.fullName = u.fullName) : t = u := by
  have hget := h.get?_eq_some_iff.2 ⟨hu, rfl⟩
  rw [← hname, h.get?_eq_some_iff.2 ⟨ht, rfl⟩] at hget
  exact Option.some.inj hget

theorem Valid.get?_eq_none_iff {r : Registry} (h : r.Valid) {full : String} :
    r.get? full = none ↔ r.contains full = false := by
  rw [Option.eq_none_iff_forall_ne_some, ← Bool.not_eq_true, h.contains_iff, names, List.mem_map]
  simp only [ne_eq, h.get?_eq_some_iff, not_exists]

/-- Registering under a free name keeps a registry valid. -/
theorem Valid.append {r : Registry} (h : r.Valid) {record : TypeRecord}
    (hfree : r.contains record.fullName = false) : (r.append record).Valid := by
  rw [contains_eq_isSome, Option.isSome_eq_false_iff, Option.isNone_iff_eq_none] at hfree
  exact h.located.push hfree (r.position?_append record)

end Registry

end JavaOutline
