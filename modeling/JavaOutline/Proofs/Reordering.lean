import JavaOutline.Proofs.Rebuilding
import JavaOutline.Proofs.Relations

/-!
# JavaOutline.Proofs.Reordering

The order of registration does not change what names mean.  A lookup in a valid
registry asks only which records there are (`Registry.Reordered.get?_eq`), so the
types around a type, what a written type means and what a record refers to are
the same in two registries of the same records.

The references of the records then are the same, in another order.  A relation is
the strongest reference with its ends, which does not depend on the order
(`RelationSet.Collects.mem_iff`), so the relations are the same as well
(`Registry.Reordered.relations_perm`).

`Registry.registration_order_irrelevant` says so of registering records in two
orders.
-/

namespace JavaOutline

/-- A set holds no relation twice. -/
theorem RelationSet.Valid.nodup {s : RelationSet} (h : s.Valid) : s.toList.Nodup :=
  List.Pairwise.of_map Relation.ends (fun _ _ hne heq => hne (congrArg Relation.ends heq))
    (Located.nodup_keys h)

/-- The strongest of several relations is so in any order. -/
theorem Relation.isStrongest_iff_of_perm {met met' : List Relation} (h : met.Perm met')
    {x : Relation} : IsStrongest met x ↔ IsStrongest met' x := by
  simp only [IsStrongest, h.mem_iff]

namespace Registry

/-- Two valid registries with the same records, perhaps in another order. -/
structure Reordered (r r' : Registry) : Prop where
  left : r.Valid
  right : r'.Valid
  records : r.toList.Perm r'.toList

namespace Reordered

variable {r r' : Registry}

theorem get?_eq (h : Reordered r r') (full : String) : r.get? full = r'.get? full := by
  refine Option.ext fun t => ?_
  rw [h.left.get?_eq_some_iff, h.right.get?_eq_some_iff, h.records.mem_iff]

theorem outer?_eq (h : Reordered r r') (t : TypeRecord) : r.outer? t = r'.outer? t := by
  rw [outer?, outer?, h.get?_eq]

/-- The scopes seen from a type are the same. -/
theorem enclosing_eq (h : Reordered r r') (t : TypeRecord) : r.enclosing t = r'.enclosing t := by
  induction t using h.left.outward_induction with
  | top t ho =>
      have ho' := (h.outer?_eq t).symm.trans ho
      rw [enclosing_of_outer?_eq_none ho, enclosing_of_outer?_eq_none ho']
  | nested t outer ho ih =>
      have ho' := (h.outer?_eq t).symm.trans ho
      rw [h.left.enclosing_eq ho, h.right.enclosing_eq ho', ih]

theorem resolve?_eq (h : Reordered r r') (scope : TypeRecord) (written : String) :
    r.resolve? scope written = r'.resolve? scope written := by
  simp only [resolve?, h.enclosing_eq, h.get?_eq]

theorem resolveOptional?_eq (h : Reordered r r') (scope : TypeRecord) (written : Option String) :
    r.resolveOptional? scope written = r'.resolveOptional? scope written := by
  rw [resolveOptional?, resolveOptional?, funext (h.resolve?_eq scope)]

theorem super?_eq (h : Reordered r r') (t : TypeRecord) : r.super? t = r'.super? t :=
  h.resolveOptional?_eq t t.superName

theorem interfaces_eq (h : Reordered r r') (t : TypeRecord) :
    r.interfaces t = r'.interfaces t := by
  rw [interfaces, interfaces, funext (h.resolve?_eq t)]

/-- A record refers to the same records, in the same order. -/
theorem references_eq (h : Reordered r r') (t : TypeRecord) :
    r.references t = r'.references t := by
  have hresolve : r.resolveOptional? t = r'.resolveOptional? t :=
    funext (h.resolveOptional?_eq t)
  rw [references, references, h.super?_eq, h.interfaces_eq, h.outer?_eq, hresolve]

/-- The references of all records are the same in another order. -/
theorem mentions_perm (h : Reordered r r') : r.mentions.Perm r'.mentions := by
  simp only [mentions, h.references_eq]
  exact h.records.flatMap_right _

/-- The relations are the same in another order. -/
theorem relations_perm (h : Reordered r r') : r.relations.Perm r'.relations := by
  obtain ⟨s, hs, heq⟩ := r.relations_eq
  obtain ⟨s', hs', heq'⟩ := r'.relations_eq
  rw [heq, heq']
  refine (List.perm_ext_iff_of_nodup hs.valid.nodup hs'.valid.nodup).2 fun x => ?_
  rw [hs.mem_iff, hs'.mem_iff, Relation.isStrongest_iff_of_perm h.mentions_perm]

end Reordered

/-- **The order of registration does not matter.**  Records of distinct full
names can be registered in any order.  In two orders every written type means the
same inside every type, registered or not, and so do super type, interfaces and
the type around; the relations are the same, each once, and differ in their order
at most. -/
theorem registration_order_irrelevant {records records' : List TypeRecord}
    (hdistinct : (records.map TypeRecord.fullName).Nodup) (hperm : records.Perm records') :
    ∃ r r' : Registry, ofRecords records = .ok r ∧ ofRecords records' = .ok r' ∧
      r.toList = records ∧ r'.toList = records' ∧
      (∀ scope written, r.resolve? scope written = r'.resolve? scope written) ∧
      (∀ t, r.super? t = r'.super? t ∧ r.interfaces t = r'.interfaces t ∧
        r.outer? t = r'.outer? t) ∧
      r.relations.Perm r'.relations := by
  have hdistinct' := (hperm.map TypeRecord.fullName).nodup_iff.1 hdistinct
  obtain ⟨r, hrecords, hbuilt, hlist⟩ := ofRecords_of_nodup hdistinct
  obtain ⟨r', hrecords', hbuilt', hlist'⟩ := ofRecords_of_nodup hdistinct'
  have h : Reordered r r' := ⟨hbuilt.valid, hbuilt'.valid, by rwa [hlist, hlist']⟩
  exact ⟨r, r', hrecords, hrecords', hlist, hlist', h.resolve?_eq,
    fun t => ⟨h.super?_eq t, h.interfaces_eq t, h.outer?_eq t⟩, h.relations_perm⟩

/-- A class that extends one with a field of another. -/
def truck : TypeRecord := (TypeRecord.start "garage.Truck" .classType).withSuper "Car"

/-- The three classes. -/
def garage : Registry := ((empty.append car).append engine).append truck

/-- The three classes in the other order. -/
def garageReversed : Registry := ((empty.append truck).append engine).append car

/-- In the other order the relations come in the other order. -/
theorem registration_order_irrelevant_garage :
    ([car, engine, truck].map TypeRecord.fullName).Nodup ∧
      [car, engine, truck].Perm [truck, engine, car] ∧
      ofRecords [car, engine, truck] = .ok garage ∧
      ofRecords [truck, engine, car] = .ok garageReversed ∧
      garage.relations = [⟨.association, "garage.Car", "garage.Engine"⟩,
        ⟨.generalization, "garage.Truck", "garage.Car"⟩] ∧
      garageReversed.relations = [⟨.generalization, "garage.Truck", "garage.Car"⟩,
        ⟨.association, "garage.Car", "garage.Engine"⟩] ∧
      garage.relations.Perm garageReversed.relations ∧
      garageReversed.super? truck = some car := by
  have hdistinct : ([car, engine, truck].map TypeRecord.fullName).Nodup := by decide +kernel
  have hperm : [car, engine, truck].Perm [truck, engine, car] := (List.reverse_perm _).symm
  have hbuilt : garage.Built := ((Built.empty.append (by decide +kernel)).append
    (by decide +kernel)).append (by decide +kernel)
  have hbuilt' : garageReversed.Built := ((Built.empty.append (by decide +kernel)).append
    (by decide +kernel)).append (by decide +kernel)
  obtain ⟨r, r', hr, hr', _, _, _, hscopes, hrelations⟩ :=
    registration_order_irrelevant hdistinct hperm
  obtain rfl : garage = r := Except.ok.inj (hbuilt.ofRecords_toList.symm.trans hr)
  obtain rfl : garageReversed = r' := Except.ok.inj (hbuilt'.ofRecords_toList.symm.trans hr')
  refine ⟨hdistinct, hperm, hr, hr', by decide +kernel, by decide +kernel, hrelations, ?_⟩
  rw [← (hscopes truck).1]
  decide +kernel

end Registry

end JavaOutline
