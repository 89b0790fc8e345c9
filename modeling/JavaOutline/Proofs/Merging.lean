import JavaOutline.Proofs.Rebuilding

/-!
# JavaOutline.Proofs.Merging

Merging registries.  A merge appends the records of the other registry whose
names are free and reports the names of the rest (`Registry.Valid.toList_merge`,
`Registry.Valid.skipped_merge`), so the names that are taken afterwards are those
of both (`Registry.Valid.mem_names_merge_iff`).

Merging three registries in either grouping appends the same records in the same
order.  The duplicates are met at other times, since a record of the third may be
skipped for the first or for the second registry, but each is skipped once
(`Registry.skipped_perm`).  `Registry.Built.merge_monoid` puts this together.
-/

namespace JavaOutline

namespace Registry

/-! ## One merge -/

section

variable {a b : Registry}

theorem Valid.contains_eq (h : a.Valid) (full : String) :
    a.contains full = decide (full ∈ a.names) :=
  Bool.eq_iff_iff.2 (by rw [h.contains_iff, decide_eq_true_iff])

/-- A merge appends the records whose names are free. -/
theorem Valid.toList_merge (ha : a.Valid) (hb : b.Valid) :
    (a.merge b).1.toList = a.toList ++ b.toList.filter fun t => t.fullName ∉ a.names := by
  have hmerge : (a.merge b).1 = (a.fresh b.toList).foldl Registry.append a :=
    registry_registerAll a b.toList
  rw [hmerge, toList_foldl_append, fresh_eq_filter hb.nodup_names]
  simp only [ha.contains_eq, decide_not]

/-- A merge reports the names of the records whose names are taken. -/
theorem Valid.skipped_merge (ha : a.Valid) (hb : b.Valid) :
    (a.merge b).2 = (b.toList.filter fun t => t.fullName ∈ a.names).map TypeRecord.fullName := by
  have hmerge : (a.merge b).2 = (a.stale b.toList).map TypeRecord.fullName :=
    skipped_registerAll a b.toList
  rw [hmerge, stale_eq_filter hb.nodup_names]
  simp only [ha.contains_eq]

/-- After a merge the names of both registries are taken. -/
theorem Valid.mem_names_merge_iff (ha : a.Valid) (hb : b.Valid) {full : String} :
    full ∈ (a.merge b).1.names ↔ full ∈ a.names ∨ full ∈ b.names := by
  rw [names, ha.toList_merge hb, List.map_append, List.mem_append]
  constructor
  · rintro (h | h)
    · exact .inl h
    · obtain ⟨t, ht, rfl⟩ := List.mem_map.1 h
      exact .inr (List.mem_map_of_mem (List.mem_filter.1 ht).1)
  · rintro (h | h)
    · exact .inl h
    · by_cases htaken : full ∈ a.names
      · exact .inl htaken
      · obtain ⟨t, ht, rfl⟩ := List.mem_map.1 h
        exact .inr (List.mem_map_of_mem (List.mem_filter.2 ⟨ht, by simpa using htaken⟩))

theorem Valid.merge (ha : a.Valid) (b : Registry) : (a.merge b).1.Valid :=
  ha.registerAll b.toList

/-- A name of both registries means what it meant in the first. -/
theorem Valid.get?_merge (ha : a.Valid) (hb : b.Valid) (full : String) :
    (a.merge b).1.get? full = (a.get? full).or (b.get? full) := by
  refine Option.ext fun t => ?_
  rw [(ha.merge b).get?_eq_some_iff, ha.toList_merge hb, List.mem_append, Option.or_eq_some_iff,
    ha.get?_eq_some_iff, ha.get?_eq_none_iff, hb.get?_eq_some_iff, ha.contains_eq,
    List.mem_filter]
  constructor
  · rintro ⟨h | ⟨h, hfree⟩, rfl⟩
    · exact .inl ⟨h, rfl⟩
    · exact .inr ⟨by simpa using hfree, h, rfl⟩
  · rintro (⟨h, rfl⟩ | ⟨hfree, h, rfl⟩)
    · exact ⟨.inl h, rfl⟩
    · exact ⟨.inr ⟨h, by simpa using hfree⟩, rfl⟩

/-! ## Merging nothing, and merging the same again -/

theorem merge_empty (a : Registry) : a.merge empty = (a, []) := rfl

theorem Built.empty_merge (ha : a.Built) : Registry.empty.merge a = (a, []) := by
  have hlist := valid_empty.toList_merge ha.valid
  have hskipped := valid_empty.skipped_merge ha.valid
  have hnone : ∀ full : String, full ∉ Registry.empty.names := fun full => List.not_mem_nil
  refine Prod.ext (eq_of_toList_eq (.merge .empty ha) ha ?_) ?_
  · rw [hlist, List.filter_eq_self.2 (by simp [hnone])]
    rfl
  · rw [hskipped, List.filter_eq_nil_iff.2 (by simp [hnone])]
    rfl

/-- Merging a copy of a registry into it skips every name. -/
theorem Built.merge_self (ha : a.Built) : a.merge a = (a, a.names) := by
  have htaken : ∀ t ∈ a.toList, t.fullName ∈ a.names := fun t ht => List.mem_map_of_mem ht
  have hlist := ha.valid.toList_merge ha.valid
  have hskipped := ha.valid.skipped_merge ha.valid
  refine Prod.ext (eq_of_toList_eq (.merge ha ha) ha ?_) ?_
  · rw [hlist, List.filter_eq_nil_iff.2 (by simpa using htaken), List.append_nil]
  · rw [hskipped, List.filter_eq_self.2 (by simpa using htaken), names]

end

/-! ## Two merges -/

/-- What has one of two properties is what has the second, and of the rest what
has the first. -/
theorem filter_or_perm {α : Type} (p q : α → Bool) (l : List α) :
    (l.filter fun x => p x || q x).Perm (l.filter q ++ (l.filter fun x => !q x).filter p) := by
  have hsecond : ((l.filter fun x => p x || q x).filter q) = l.filter q := by
    rw [List.filter_filter]
    exact List.filter_congr fun x _ => by cases p x <;> cases q x <;> rfl
  have hfirst : ((l.filter fun x => p x || q x).filter fun x => !q x) =
      (l.filter fun x => !q x).filter p := by
    rw [List.filter_filter, List.filter_filter]
    exact List.filter_congr fun x _ => by cases p x <;> cases q x <;> rfl
  have hparts := List.filter_append_perm q (l.filter fun x => p x || q x)
  rw [hsecond, hfirst] at hparts
  exact hparts.symm

section

variable {a b c : Registry}

/-- Of a third registry, those records are appended whose names are in neither
of the two others, in whichever grouping. -/
theorem Built.merge_assoc (ha : a.Built) (hb : b.Built) (hc : c.Built) :
    ((a.merge b).1.merge c).1 = (a.merge (b.merge c).1).1 := by
  have hab := ha.valid.merge b
  have hbc := hb.valid.merge c
  refine eq_of_toList_eq (.merge (.merge ha hb) hc) (.merge ha (.merge hb hc)) ?_
  rw [hab.toList_merge hc.valid, ha.valid.toList_merge hbc, ha.valid.toList_merge hb.valid,
    hb.valid.toList_merge hc.valid, List.filter_append, List.filter_filter, List.append_assoc]
  simp only [ha.valid.mem_names_merge_iff hb.valid, not_or, Bool.decide_and]

/-- In either grouping a record is skipped for each earlier registry that has its
name, once. -/
theorem skipped_perm (ha : a.Valid) (hb : b.Valid) (hc : c.Valid) :
    ((a.merge b).2 ++ ((a.merge b).1.merge c).2).Perm
      ((b.merge c).2 ++ (a.merge (b.merge c).1).2) := by
  -- A record of `c` is skipped for `b` if its name is there, and else for `a`.
  have hparts := (filter_or_perm (fun t : TypeRecord => decide (t.fullName ∈ a.names))
    (fun t => decide (t.fullName ∈ b.names)) c.toList).map TypeRecord.fullName
  rw [ha.skipped_merge hb, (ha.merge b).skipped_merge hc, hb.skipped_merge hc,
    ha.skipped_merge (hb.merge c), hb.toList_merge hc, List.filter_append, List.map_append]
  rw [List.map_append] at hparts
  simp only [ha.mem_names_merge_iff hb, Bool.decide_or, decide_not]
  refine (hparts.append_left _).trans ?_
  rw [← List.append_assoc, ← List.append_assoc]
  exact List.perm_append_comm.append_right _

/-- **Merging keeps the first registration, and may be grouped at will.**  For
registries that were built, a merge appends the records whose names are free, in
their order, and reports the names of the others; a name means what it means in
the first registry that has it.  Merging the empty registry, or merging into it,
changes nothing and skips nothing; merging a copy changes nothing and skips every
name.  Three registries come to the same registry in either grouping, and the same
names are skipped, each as often. -/
theorem Built.merge_monoid (ha : a.Built) (hb : b.Built) (hc : c.Built) :
    ((a.merge b).1.toList = a.toList ++ b.toList.filter (fun t => t.fullName ∉ a.names) ∧
      (a.merge b).2 =
        (b.toList.filter fun t => t.fullName ∈ a.names).map TypeRecord.fullName ∧
      ∀ full, (a.merge b).1.get? full = (a.get? full).or (b.get? full)) ∧
    (a.merge Registry.empty = (a, []) ∧ Registry.empty.merge a = (a, [])) ∧
    a.merge a = (a, a.names) ∧
    ((a.merge b).1.merge c).1 = (a.merge (b.merge c).1).1 ∧
    ((a.merge b).2 ++ ((a.merge b).1.merge c).2).Perm
      ((b.merge c).2 ++ (a.merge (b.merge c).1).2) :=
  ⟨⟨ha.valid.toList_merge hb.valid, ha.valid.skipped_merge hb.valid, ha.valid.get?_merge hb.valid⟩,
    ⟨a.merge_empty, ha.empty_merge⟩, ha.merge_self, ha.merge_assoc hb hc,
    skipped_perm ha.valid hb.valid hc.valid⟩

end

/-- Two classes. -/
def twoClasses : Registry :=
  (empty.append (.start "p.A" .classType)).append (.start "p.B" .classType)

/-- Two enums, one of which has the name of a class. -/
def twoEnums : Registry :=
  (empty.append (.start "p.B" .enumType)).append (.start "p.C" .enumType)

/-- Three interfaces, with the names of a class, of an enum, and of both. -/
def threeInterfaces : Registry :=
  ((empty.append (.start "p.A" .interfaceType)).append (.start "p.C" .interfaceType)).append
    (.start "p.B" .interfaceType)

/-- A name of all three registries is skipped twice in either grouping, though
not at the same merges. -/
theorem merge_monoid_overlapping :
    (twoClasses.Built ∧ twoEnums.Built ∧ threeInterfaces.Built) ∧
      ((twoClasses.merge twoEnums).2 = ["p.B"] ∧
        ((twoClasses.merge twoEnums).1.merge threeInterfaces).2 = ["p.A", "p.C", "p.B"]) ∧
      ((twoEnums.merge threeInterfaces).2 = ["p.C", "p.B"] ∧
        (twoClasses.merge (twoEnums.merge threeInterfaces).1).2 = ["p.B", "p.A"]) ∧
      ((twoClasses.merge twoEnums).1.merge threeInterfaces).1 =
        (twoClasses.merge (twoEnums.merge threeInterfaces).1).1 ∧
      (twoClasses.merge twoEnums).1.get? "p.B" = twoClasses.get? "p.B" := by
  have hclasses : twoClasses.Built :=
    (Built.empty.append (by decide +kernel)).append (by decide +kernel)
  have henums : twoEnums.Built :=
    (Built.empty.append (by decide +kernel)).append (by decide +kernel)
  have hinterfaces : threeInterfaces.Built :=
    ((Built.empty.append (by decide +kernel)).append (by decide +kernel)).append (by decide +kernel)
  obtain ⟨⟨_, _, hget⟩, _, _, hassoc, _⟩ := hclasses.merge_monoid henums hinterfaces
  refine ⟨⟨hclasses, henums, hinterfaces⟩, by decide +kernel, by decide +kernel, hassoc, ?_⟩
  rw [hget]
  decide +kernel

end Registry

end JavaOutline
