import JavaOutline.Registry

/-!
# JavaOutline.Proofs.Registration

What registering several records comes to.  `Registry.fresh r records` are
the records that a registry `r` takes: those whose full name neither `r`
nor an earlier record of the list has.

* `registry_registerAll`, `accepted_registerAll` — registering appends the
  fresh records and reports their names;
* `registerAll_fresh` — records that a smaller registry would refuse make
  no difference, so a list may first be registered elsewhere;
* `filter_skipped_registerAll` — of records with distinct names, the
  accepted are those that are not skipped.
-/

namespace JavaOutline

namespace Registry

/-! ## Names that are taken -/

@[simp] theorem contains_empty (full : String) : empty.contains full = false := by
  rw [contains_eq_isSome]
  simp [empty, position?]

/-- Appending a record takes its name and no other. -/
@[simp] theorem contains_append (r : Registry) (record : TypeRecord) (full : String) :
    (r.append record).contains full = (record.fullName == full || r.contains full) := by
  rw [contains_eq_isSome, contains_eq_isSome, position?_append]
  by_cases h : record.fullName = full <;> simp [h]

theorem register_of_contains {r : Registry} {record : TypeRecord}
    (h : r.contains record.fullName = true) :
    r.register record = .error (.duplicate record.fullName) := by
  rw [register, if_pos h]

theorem register_of_not_contains {r : Registry} {record : TypeRecord}
    (h : r.contains record.fullName = false) : r.register record = .ok (r.append record) := by
  rw [register, if_neg (by simp [h])]

/-- A record that is registered had a free name and is appended. -/
theorem eq_append_of_register {r r' : Registry} {record : TypeRecord}
    (h : r.register record = .ok r') :
    r.contains record.fullName = false ∧ r' = r.append record := by
  rw [register] at h
  split at h
  · cases h
  · next hfree =>
      cases h
      exact ⟨by simpa using hfree, rfl⟩

/-! ## Records that are taken -/

/-- The records of a list whose full names are free when they are
registered one after the other. -/
def fresh (r : Registry) : List TypeRecord → List TypeRecord
  | [] => []
  | record :: records =>
    if r.contains record.fullName then r.fresh records
    else record :: (r.append record).fresh records

/-- The records of a list whose full names are taken by then. -/
def stale (r : Registry) : List TypeRecord → List TypeRecord
  | [] => []
  | record :: records =>
    if r.contains record.fullName then record :: r.stale records
    else (r.append record).stale records

/-- Registering goes on from what has been registered. -/
theorem foldl_add (records : List TypeRecord) (a : Registration) :
    records.foldl Registration.add a =
      ⟨(a.registry.fresh records).foldl append a.registry,
        a.accepted ++ (a.registry.fresh records).map TypeRecord.fullName,
        a.skipped ++ (a.registry.stale records).map TypeRecord.fullName⟩ := by
  induction records generalizing a with
  | nil => simp [fresh, stale]
  | cons record records ih =>
      rw [List.foldl_cons, ih]
      cases h : a.registry.contains record.fullName with
      | true =>
          have hadd : a.add record = { a with skipped := a.skipped ++ [record.fullName] } := by
            rw [Registration.add, register_of_contains h]
          rw [hadd]
          simp [fresh, stale, h]
      | false =>
          have hadd : a.add record = { a with
              registry := a.registry.append record
              accepted := a.accepted ++ [record.fullName] } := by
            rw [Registration.add, register_of_not_contains h]
          rw [hadd]
          simp [fresh, stale, h]

/-- Registering appends the fresh records. -/
@[simp] theorem registry_registerAll (r : Registry) (records : List TypeRecord) :
    (r.registerAll records).registry = (r.fresh records).foldl append r := by
  rw [registerAll, foldl_add]

@[simp] theorem accepted_registerAll (r : Registry) (records : List TypeRecord) :
    (r.registerAll records).accepted = (r.fresh records).map TypeRecord.fullName := by
  rw [registerAll, foldl_add]
  simp

@[simp] theorem skipped_registerAll (r : Registry) (records : List TypeRecord) :
    (r.registerAll records).skipped = (r.stale records).map TypeRecord.fullName := by
  rw [registerAll, foldl_add]
  simp

@[simp] theorem toList_foldl_append (r : Registry) (records : List TypeRecord) :
    (records.foldl append r).toList = r.toList ++ records := by
  induction records generalizing r with
  | nil => simp
  | cons record records ih => rw [List.foldl_cons, ih, toList_append, List.append_assoc]; rfl

/-- What appending a record under a free name keeps, registering a list
keeps. -/
theorem foldl_fresh_invariant {I : Registry → Prop}
    (append : ∀ (r : Registry) (record : TypeRecord), r.contains record.fullName = false →
      I r → I (r.append record))
    {r : Registry} (h : I r) (records : List TypeRecord) :
    I ((r.fresh records).foldl Registry.append r) := by
  induction records generalizing r with
  | nil => exact h
  | cons record records ih =>
      rw [fresh]
      split
      · exact ih h
      · next hfree => exact ih (append r record (by simpa using hfree) h)

/-- Of two lists the first is registered, and then the second. -/
theorem fresh_append (r : Registry) (records more : List TypeRecord) :
    r.fresh (records ++ more) = r.fresh records ++ ((r.fresh records).foldl append r).fresh more := by
  induction records generalizing r with
  | nil => rfl
  | cons record records ih =>
      rw [List.cons_append, fresh, fresh]
      split
      · exact ih r
      · rw [List.cons_append, List.foldl_cons, ih]

/-! ## Distinct names -/

/-- A fresh record has a name that was free. -/
theorem not_contains_of_mem_fresh {r : Registry} {records : List TypeRecord} {t : TypeRecord}
    (h : t ∈ r.fresh records) : r.contains t.fullName = false := by
  induction records generalizing r with
  | nil => simp [fresh] at h
  | cons record records ih =>
      rw [fresh] at h
      split at h
      · exact ih h
      · next hfree =>
          rcases List.mem_cons.1 h with rfl | h
          · simpa using hfree
          · have hlater := ih h
            rw [contains_append, Bool.or_eq_false_iff] at hlater
            exact hlater.2

/-- Fresh records have distinct names. -/
theorem nodup_fresh (r : Registry) (records : List TypeRecord) :
    ((r.fresh records).map TypeRecord.fullName).Nodup := by
  induction records generalizing r with
  | nil => exact List.nodup_nil
  | cons record records ih =>
      rw [fresh]
      split
      · exact ih r
      · rw [List.map_cons, List.nodup_cons]
        refine ⟨fun hmem => ?_, ih _⟩
        obtain ⟨t, ht, hname⟩ := List.mem_map.1 hmem
        have hfree := not_contains_of_mem_fresh ht
        rw [contains_append, hname] at hfree
        simp at hfree

/-- The names of the fresh records are those that are free. -/
theorem mem_names_fresh_iff {r : Registry} {records : List TypeRecord} {name : String} :
    name ∈ (r.fresh records).map TypeRecord.fullName ↔
      name ∈ records.map TypeRecord.fullName ∧ r.contains name = false := by
  induction records generalizing r with
  | nil => simp [fresh]
  | cons record records ih =>
      rw [fresh]
      by_cases heq : name = record.fullName
      · subst heq
        cases htaken : r.contains record.fullName <;> simp [ih, htaken]
      · split <;> simp [ih, heq, Ne.symm heq]

/-- Fresh records are in order. -/
theorem fresh_sublist (r : Registry) (records : List TypeRecord) :
    (r.fresh records).Sublist records := by
  induction records generalizing r with
  | nil => exact .slnil
  | cons record records ih =>
      rw [fresh]
      split
      · exact (ih r).cons record
      · exact (ih _).cons_cons record

/-- Where names are distinct, a record is fresh if its name is free. -/
theorem fresh_eq_filter {r : Registry} {records : List TypeRecord}
    (h : (records.map TypeRecord.fullName).Nodup) :
    r.fresh records = records.filter fun t => !r.contains t.fullName := by
  induction records generalizing r with
  | nil => rfl
  | cons record records ih =>
      obtain ⟨hnot, hrest⟩ := List.nodup_cons.1 h
      rw [fresh, List.filter_cons]
      split
      · next htaken => rw [ih hrest]; simp [htaken]
      · next hfree =>
          rw [ih hrest, if_pos (by simpa using hfree)]
          congr 1
          refine List.filter_congr fun t ht => ?_
          have hne : record.fullName ≠ t.fullName := fun heq =>
            hnot (heq ▸ List.mem_map_of_mem ht)
          rw [contains_append]
          simp [hne]

/-- All records of a list are fresh if their names are distinct and free. -/
theorem fresh_eq_self_iff {r : Registry} {records : List TypeRecord} :
    r.fresh records = records ↔ (records.map TypeRecord.fullName).Nodup ∧
      ∀ t ∈ records, r.contains t.fullName = false := by
  constructor
  · intro h
    exact ⟨h ▸ nodup_fresh r records, fun t ht => not_contains_of_mem_fresh (h.symm ▸ ht)⟩
  · rintro ⟨hdistinct, hfree⟩
    rw [fresh_eq_filter hdistinct, List.filter_eq_self]
    exact fun t ht => by simp [hfree t ht]

theorem stale_eq_filter {r : Registry} {records : List TypeRecord}
    (h : (records.map TypeRecord.fullName).Nodup) :
    r.stale records = records.filter fun t => r.contains t.fullName := by
  induction records generalizing r with
  | nil => rfl
  | cons record records ih =>
      obtain ⟨hnot, hrest⟩ := List.nodup_cons.1 h
      rw [stale, List.filter_cons]
      split
      · rw [ih hrest]
      · rw [ih hrest]
        refine List.filter_congr fun t ht => ?_
        have hne : record.fullName ≠ t.fullName := fun heq =>
          hnot (heq ▸ List.mem_map_of_mem ht)
        rw [contains_append]
        simp [hne]

/-- Of records with distinct names, the accepted are those that are not
skipped. -/
theorem filter_skipped_registerAll {r : Registry} {records : List TypeRecord}
    (h : (records.map TypeRecord.fullName).Nodup) :
    (records.map TypeRecord.fullName).filter
        (fun name => !(r.registerAll records).skipped.contains name) =
      (r.registerAll records).accepted := by
  rw [accepted_registerAll, skipped_registerAll, fresh_eq_filter h, stale_eq_filter h,
    List.filter_map]
  congr 1
  refine List.filter_congr fun t ht => ?_
  have hskipped : t.fullName ∈ (records.filter fun t => r.contains t.fullName).map
      TypeRecord.fullName ↔ r.contains t.fullName = true := by
    constructor
    · intro hmem
      obtain ⟨u, hu, hname⟩ := List.mem_map.1 hmem
      rw [← hname]
      exact (List.mem_filter.1 hu).2
    · intro htaken
      exact List.mem_map_of_mem (List.mem_filter.2 ⟨ht, htaken⟩)
  cases htaken : r.contains t.fullName <;> simp [hskipped, htaken, Function.comp]

/-! ## Registering elsewhere first -/

/-- A registry takes the same of a list and of what a smaller registry
takes of it. -/
theorem fresh_fresh {small r : Registry} {records : List TypeRecord}
    (h : ∀ full, small.contains full = true → r.contains full = true) :
    r.fresh (small.fresh records) = r.fresh records := by
  induction records generalizing small r with
  | nil => rfl
  | cons record records ih =>
      have hgrown : ∀ full, (small.append record).contains full = true →
          (r.append record).contains full = true := by
        intro full hfull
        rw [contains_append, Bool.or_eq_true] at hfull ⊢
        exact hfull.imp id (h full)
      cases hsmall : small.contains record.fullName with
      | true =>
          have htaken := h _ hsmall
          simp only [fresh, hsmall, htaken, if_true]
          exact ih h
      | false =>
          cases htaken : r.contains record.fullName with
          | true =>
              simp only [fresh, hsmall, htaken, if_true, Bool.false_eq_true, if_false]
              refine ih fun full hfull => ?_
              rw [contains_append, Bool.or_eq_true] at hfull
              rcases hfull with heq | hfull
              · rw [← eq_of_beq heq]; exact htaken
              · exact h full hfull
          | false =>
              simp only [fresh, hsmall, htaken, Bool.false_eq_true, if_false]
              rw [ih hgrown]

/-- What a registry of its own takes of a list can be merged into any
other registry instead of the list. -/
theorem registerAll_fresh (r : Registry) (records : List TypeRecord) :
    (r.registerAll (empty.fresh records)).registry = (r.registerAll records).registry ∧
      (r.registerAll (empty.fresh records)).accepted = (r.registerAll records).accepted := by
  have hfresh : r.fresh (empty.fresh records) = r.fresh records :=
    fresh_fresh fun full h => by simp at h
  constructor
  · rw [registry_registerAll, registry_registerAll, hfresh]
  · rw [accepted_registerAll, accepted_registerAll, hfresh]

end Registry

end JavaOutline
