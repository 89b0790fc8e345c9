import JavaOutline.Entries

/-!
# JavaOutline.ImportTable

Import tables: from simple names to full names.  The entries are kept in
ascending order of the simple names, each name once, so two tables that
answer every lookup alike are equal (`ImportTable.ext_get?`).
-/

namespace JavaOutline

/-- From simple names to full names. -/
structure ImportTable where
  entries : List (String × String)
  ascending : AscendingNames entries

namespace ImportTable

/-- The table without entries. -/
def empty : ImportTable := ⟨[], List.Pairwise.nil⟩

/-- Make a simple name mean a full name. -/
def insert (table : ImportTable) (short full : String) : ImportTable :=
  ⟨Entries.put short full table.entries, Entries.ascendingNames_put table.ascending short full⟩

/-- The full name that a simple name means. -/
def get? (table : ImportTable) (short : String) : Option String :=
  Entries.lookup short table.entries

/-- A table overlaid by the entries of another. -/
def overlay (table other : ImportTable) : ImportTable :=
  other.entries.foldl (fun t e => t.insert e.1 e.2) table

/-- The table of a list of entries; of two for one name the later counts. -/
def ofList (entries : List (String × String)) : ImportTable :=
  entries.foldl (fun t e => t.insert e.1 e.2) empty

@[simp] theorem get?_empty (short : String) : empty.get? short = none := rfl

@[simp] theorem get?_insert (table : ImportTable) (short full key : String) :
    (table.insert short full).get? key = if short = key then some full else table.get? key :=
  Entries.lookup_put short key full table.entries

/-- Tables that answer every lookup alike are equal. -/
theorem ext_get? {a b : ImportTable} (h : ∀ short, a.get? short = b.get? short) : a = b := by
  obtain ⟨xs, hx⟩ := a
  obtain ⟨ys, hy⟩ := b
  have : xs = ys := Entries.eq_of_lookup_eq hx hy h
  subst this
  rfl

/-- Inserting entries one after the other puts them into the table. -/
theorem entries_foldl_insert (entries : List (String × String)) (table : ImportTable) :
    (entries.foldl (fun t e => t.insert e.1 e.2) table).entries =
      entries.foldl (fun es e => Entries.put e.1 e.2 es) table.entries := by
  induction entries generalizing table with
  | nil => rfl
  | cons e entries ih => exact ih (table.insert e.1 e.2)

/-- What a table means that is overlaid by another. -/
theorem get?_overlay (table other : ImportTable) (short : String) :
    (table.overlay other).get? short = (other.get? short).or (table.get? short) := by
  rw [get?, overlay, entries_foldl_insert]
  exact Entries.lookup_foldl_put _ (Entries.nodup_of_ascendingNames other.ascending) _ _

/-- Overlaying nothing by a table gives the table. -/
@[simp] theorem empty_overlay (table : ImportTable) : empty.overlay table = table := by
  apply ext_get?
  intro short
  rw [get?_overlay, get?_empty, Option.or_none]

/-- A table is that of its entries. -/
@[simp] theorem ofList_entries (table : ImportTable) : ofList table.entries = table :=
  table.empty_overlay

instance : Inhabited ImportTable := ⟨empty⟩

instance : DecidableEq ImportTable := fun a b =>
  decidable_of_iff (a.entries = b.entries) (by cases a; cases b; simp)

end ImportTable

end JavaOutline
