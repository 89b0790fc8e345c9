import JavaOutline.Proofs.Sessions

/-!
# JavaOutline.Proofs.Growth

Registries only grow.  Whatever is done to a registry comes to appending the
records of a list whose names are free (`Registry.update_eq`), so the records
that were there stay in front of the new ones (`Registry.prefix_after`) and
the registry stays valid (`Registry.Valid.after`).

`Registry.Grown` is what a lookup needs to know of two registries of which one
came from the other: what was found is found again, and what is found only now
was registered later.

`Registry.Built.integrity` says what a registry that was built can be relied
on for.
-/

namespace JavaOutline

namespace Registry

/-! ## Updates -/

/-- What is done to a registry. -/
inductive Update where
  | register (record : TypeRecord)
  | merge (other : Registry)
  | readText (withLocals : Bool) (text : String)

/-- The records that an update brings. -/
def Update.records : Update → List TypeRecord
  | .register record => [record]
  | .merge other => other.toList
  | .readText withLocals text => outline withLocals text

/-- A registry after an update.  A record that is refused leaves it as it
was. -/
def update (r : Registry) : Update → Registry
  | .register record =>
    match r.register record with
    | .ok registry => registry
    | .error _ => r
  | .merge other => (r.merge other).1
  | .readText withLocals text => (r.readText withLocals text).1

/-- A registry after several updates. -/
def after (r : Registry) (updates : List Update) : Registry := updates.foldl update r

/-- An update appends what is fresh of the records that it brings. -/
theorem update_eq (r : Registry) (u : Update) :
    r.update u = (r.fresh u.records).foldl append r := by
  cases u with
  | register record =>
      cases h : r.contains record.fullName with
      | true => simp [update, Update.records, fresh, register_of_contains h, h]
      | false => simp [update, Update.records, fresh, register_of_not_contains h, h]
  | merge other => exact registry_registerAll r other.toList
  | readText withLocals text =>
      rw [update, readText_eq]
      exact registry_registerAll r (outline withLocals text)

theorem prefix_update (r : Registry) (u : Update) : r.toList <+: (r.update u).toList := by
  rw [update_eq, toList_foldl_append]
  exact List.prefix_append _ _

theorem Valid.update {r : Registry} (h : r.Valid) (u : Update) : (r.update u).Valid := by
  rw [update_eq]
  exact h.foldl_append u.records

/-- Updates leave the records that were there in front. -/
theorem prefix_after (r : Registry) (updates : List Update) :
    r.toList <+: (r.after updates).toList := by
  induction updates generalizing r with
  | nil => exact List.prefix_refl _
  | cons u updates ih => exact (r.prefix_update u).trans (ih (r.update u))

theorem Valid.after {r : Registry} (h : r.Valid) (updates : List Update) :
    (r.after updates).Valid := by
  induction updates generalizing r with
  | nil => exact h
  | cons u updates ih => exact ih (h.update u)

/-! ## Lookups in a registry that has grown -/

/-- A valid registry, and a valid one with the same records in front. -/
structure Grown (r r' : Registry) : Prop where
  before : r.Valid
  now : r'.Valid
  records : r.toList <+: r'.toList

namespace Grown

variable {r r' : Registry} {full : String} {t : TypeRecord}

/-- What was found is found again. -/
theorem get?_eq_some (h : Grown r r') (ht : r.get? full = some t) : r'.get? full = some t := by
  obtain ⟨hmem, hname⟩ := h.before.get?_eq_some_iff.1 ht
  exact h.now.get?_eq_some_iff.2 ⟨h.records.subset hmem, hname⟩

/-- What is found only now was registered later. -/
theorem mem_drop (h : Grown r r') (ht : r.get? full = none) (ht' : r'.get? full = some t) :
    t ∈ r'.toList.drop r.size := by
  obtain ⟨hmem, hname⟩ := h.now.get?_eq_some_iff.1 ht'
  obtain ⟨new, hnew⟩ := h.records
  have hdrop : r'.toList.drop r.size = new := by
    rw [← hnew]
    exact List.drop_left
  rw [← hnew, List.mem_append] at hmem
  rw [hdrop]
  refine hmem.resolve_left fun hold => ?_
  rw [h.before.get?_eq_some_iff.2 ⟨hold, hname⟩] at ht
  cases ht

end Grown

theorem Built.grown {r : Registry} (h : r.Built) (updates : List Update) :
    Grown r (r.after updates) :=
  ⟨h.valid, h.valid.after updates, r.prefix_after updates⟩

/-! ## Integrity -/

/-- A record is refused if its full name is taken, for this reason only. -/
theorem register_eq_error_iff {r : Registry} {record : TypeRecord} {failure : RegistryFailure} :
    r.register record = .error failure ↔
      r.contains record.fullName = true ∧ failure = .duplicate record.fullName := by
  rw [register]
  split
  · next htaken => simp [htaken, eq_comm]
  · next hfree => simp [hfree]

/-- **Registries keep what they hold.**  In a registry that was built the full
names of the records are distinct, looking up a name gives the one record that
has it and nothing exactly if the name is not taken, and every position in the
index is one of the records.  Updates leave the records as they were, in front
of the new ones; a record is refused exactly if its name is taken, which leaves
the registry as it was, and otherwise it comes last. -/
theorem Built.integrity {r : Registry} (h : r.Built) :
    r.names.Nodup ∧
    (∀ full t, r.get? full = some t ↔ t ∈ r.toList ∧ t.fullName = full) ∧
    (∀ full, r.get? full = none ↔ r.contains full = false) ∧
    (∀ full i, r.position? full = some i → i < r.size) ∧
    (∀ updates, r.toList <+: (r.after updates).toList) ∧
    (∀ record failure, r.register record = .error failure ↔
      record.fullName ∈ r.names ∧ failure = .duplicate record.fullName) ∧
    (∀ record, record.fullName ∈ r.names → r.after [.register record] = r) ∧
    (∀ record, record.fullName ∉ r.names →
      (r.after [.register record]).toList = r.toList ++ [record]) := by
  refine ⟨h.valid.located.nodup_keys, fun full t => h.valid.get?_eq_some_iff,
    fun full => h.valid.get?_eq_none_iff, fun full i => h.valid.located.lt_size, r.prefix_after,
    fun record failure => ?_, fun record htaken => ?_, fun record hfree => ?_⟩
  · rw [register_eq_error_iff, h.valid.contains_iff]
  · have hrefused := register_of_contains (h.valid.contains_iff.2 htaken)
    simp [Registry.after, Registry.update, hrefused]
  · rw [← h.valid.contains_iff, Bool.not_eq_true] at hfree
    have haccepted := register_of_not_contains hfree
    simp [Registry.after, Registry.update, haccepted]

/-- A class in a package with a dot in its name. -/
def nestedPackage : TypeRecord := .start "a.b.c" .classType

/-- A class of the same full name, with the dot in its simple name. -/
def dottedName : TypeRecord := { nestedPackage with packagePath := "a", name := "b.c" }

/-- Different paths and simple names may make up one full name. -/
theorem integrity_dotted :
    (empty.append nestedPackage).Built ∧
      (empty.append nestedPackage).get? "a.b.c" = some nestedPackage ∧
      (empty.append nestedPackage).register dottedName = .error (.duplicate "a.b.c") ∧
      (empty.append nestedPackage).after [.register dottedName] = empty.append nestedPackage := by
  have hbuilt : (empty.append nestedPackage).Built := Built.empty.append (by decide +kernel)
  have htaken : dottedName.fullName ∈ (empty.append nestedPackage).names := by decide +kernel
  obtain ⟨_, hlookup, _, _, _, hrefused, hkept, _⟩ := hbuilt.integrity
  exact ⟨hbuilt, (hlookup "a.b.c" nestedPackage).2 ⟨by decide +kernel, by decide +kernel⟩,
    (hrefused dottedName _).2 ⟨htaken, by decide +kernel⟩, hkept dottedName htaken⟩

end Registry

end JavaOutline
