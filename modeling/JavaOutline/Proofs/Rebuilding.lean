import JavaOutline.Proofs.Sessions

/-!
# JavaOutline.Proofs.Rebuilding

A registry that was built is no more than the list of its records, since its
index is filled by the same appends.

* `Registry.ofRecords` registers records one after the other and stops at the
  first that is refused.  It ends if the full names are distinct, with exactly
  these records (`Registry.ofRecords_of_nodup`).
* Registering the records of a registry in order gives the registry back, index
  and all (`Registry.Built.ofRecords_toList`), so registries with the same
  records in the same order are equal (`Registry.Built.eq_of_toList_eq`).
-/

namespace JavaOutline

namespace Registry

/-! ## Appending -/

theorem Valid.nodup_names {r : Registry} (h : r.Valid) : r.names.Nodup :=
  h.located.nodup_keys

/-- The empty registry takes all records of a list whose names are distinct. -/
theorem fresh_empty {records : List TypeRecord} (h : (records.map TypeRecord.fullName).Nodup) :
    empty.fresh records = records := by
  rw [fresh_eq_filter h]
  simp

/-- Appending the fresh records of a list is registering them. -/
theorem Built.foldl_append {r : Registry} (h : r.Built) (records : List TypeRecord) :
    ((r.fresh records).foldl Registry.append r).Built :=
  foldl_fresh_invariant (fun _ _ hfree hr => hr.append hfree) h records

/-- A registry that comes from appending records still does after more are
appended. -/
theorem eq_foldl_append_of_foldl_append {r : Registry} (h : r = r.toList.foldl append empty)
    (records : List TypeRecord) :
    records.foldl append r = (records.foldl append r).toList.foldl append empty := by
  rw [toList_foldl_append, List.foldl_append, ← h]

/-- A registry that was built comes from appending its records. -/
theorem Built.eq_foldl_append {r : Registry} (h : r.Built) :
    r = r.toList.foldl Registry.append Registry.empty := by
  induction h with
  | empty => rfl
  | @register r r' record _ hregister ih =>
      obtain ⟨_, rfl⟩ := eq_append_of_register hregister
      exact eq_foldl_append_of_foldl_append ih [record]
  | @merge r other _ _ ih _ =>
      have hmerge : (r.merge other).1 = (r.fresh other.toList).foldl Registry.append r :=
        registry_registerAll r other.toList
      rw [hmerge]
      exact eq_foldl_append_of_foldl_append ih _
  | @readText r _ withLocals text ih =>
      have hread : (r.readText withLocals text).1 =
          (r.fresh (outline withLocals text)).foldl Registry.append r := by
        rw [readText_eq]
        exact registry_registerAll r (outline withLocals text)
      rw [hread]
      exact eq_foldl_append_of_foldl_append ih _

/-- Registries with the same records in the same order are equal. -/
theorem Built.eq_of_toList_eq {a b : Registry} (ha : a.Built) (hb : b.Built)
    (h : a.toList = b.toList) : a = b := by
  rw [ha.eq_foldl_append, hb.eq_foldl_append, h]

/-! ## Registries of records -/

/-- The registry of some records, registered one after the other; a record whose
full name is taken is refused. -/
def ofRecords (records : List TypeRecord) : Except RegistryFailure Registry :=
  records.foldlM register empty

/-- Records of distinct names that are free are registered without a failure. -/
theorem foldlM_register {r : Registry} {records : List TypeRecord}
    (hdistinct : (records.map TypeRecord.fullName).Nodup)
    (hfree : ∀ t ∈ records, r.contains t.fullName = false) :
    records.foldlM register r = .ok (records.foldl append r) := by
  induction records generalizing r with
  | nil => rfl
  | cons t records ih =>
      obtain ⟨hnot, hrest⟩ := List.nodup_cons.1 hdistinct
      rw [List.foldlM_cons, register_of_not_contains (hfree t List.mem_cons_self)]
      refine ih hrest fun u hu => ?_
      have hne : t.fullName ≠ u.fullName := fun heq => hnot (heq ▸ List.mem_map_of_mem hu)
      rw [contains_append]
      simp [hne, hfree u (List.mem_cons_of_mem _ hu)]

/-- Records of distinct names make up a registry, in their order. -/
theorem ofRecords_of_nodup {records : List TypeRecord}
    (h : (records.map TypeRecord.fullName).Nodup) :
    ∃ r : Registry, ofRecords records = .ok r ∧ r.Built ∧ r.toList = records := by
  have hbuilt := Built.empty.foldl_append records
  rw [fresh_empty h] at hbuilt
  exact ⟨_, foldlM_register h fun _ _ => contains_empty _, hbuilt, by simp⟩

/-- Registering the records of a registry in order gives the registry back. -/
theorem Built.ofRecords_toList {r : Registry} (h : r.Built) : ofRecords r.toList = .ok r := by
  obtain ⟨r', hrecords, hbuilt, hlist⟩ := ofRecords_of_nodup h.valid.nodup_names
  rw [hrecords, hbuilt.eq_of_toList_eq h hlist]

end Registry

end JavaOutline
