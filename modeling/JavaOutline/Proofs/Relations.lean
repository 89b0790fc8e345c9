import JavaOutline.Proofs.Scopes
import JavaOutline.Relation

/-!
# JavaOutline.Proofs.Relations

The relations between registered types are the references that mean
registered types, once for each pair and as strong as the strongest.

* `Registry.Refers` says which record refers to which, in one of seven ways;
  `Registry.references` lists these (`Registry.mem_references_iff`), in the
  order in which `Registry.walk` meets them.
* `RelationSet.Collects` is what holds of a set to which references were added
  one after the other: its ends are those of the references in the order in
  which they came first, and each relation is the strongest reference with its
  ends.  Adding one more keeps this (`RelationSet.Collects.add`).

`Registry.Built.relations_exact` puts this together.
-/

namespace JavaOutline

/-! ## The strongest of several relations -/

namespace Relation

variable {met : List Relation} {x new : Relation}

theorem le_strength_strengthen (x : Relation) (kind : Kind) :
    x.kind.strength ≤ (x.strengthen kind).kind.strength ∧
      kind.strength ≤ (x.strengthen kind).kind.strength := by
  rw [strengthen, Kind.strength_stronger]
  exact ⟨Nat.le_max_left .., Nat.le_max_right ..⟩

/-- Of two relations with the same ends, strengthening takes one. -/
theorem strengthen_eq_or (h : x.ends = new.ends) :
    x.strengthen new.kind = x ∨ x.strengthen new.kind = new := by
  obtain ⟨kind, source, target⟩ := x
  obtain ⟨kind', source', target'⟩ := new
  cases h
  rw [strengthen, Kind.stronger]
  split
  · exact .inr rfl
  · exact .inl rfl

/-- A relation is one of a list, and the others with its ends are no
stronger. -/
def IsStrongest (met : List Relation) (x : Relation) : Prop :=
  x ∈ met ∧ ∀ y ∈ met, y.ends = x.ends → y.kind.strength ≤ x.kind.strength

/-- The first relation with its ends is the strongest. -/
theorem isStrongest_first (h : new.ends ∉ met.map ends) : IsStrongest (met ++ [new]) new := by
  refine ⟨List.mem_append_right _ (List.mem_singleton_self new), fun y hy hends => ?_⟩
  rcases List.mem_append.1 hy with hy | hy
  · exact absurd (hends ▸ List.mem_map_of_mem hy) h
  · exact Nat.le_of_eq (List.mem_singleton.1 hy ▸ rfl)

/-- The strongest relation stays so when one with other ends is met. -/
theorem IsStrongest.append_of_ne (h : IsStrongest met x) (hne : new.ends ≠ x.ends) :
    IsStrongest (met ++ [new]) x := by
  refine ⟨List.mem_append_left _ h.1, fun y hy hends => ?_⟩
  rcases List.mem_append.1 hy with hy | hy
  · exact h.2 y hy hends
  · exact absurd (List.mem_singleton.1 hy ▸ hends) hne

/-- The strongest relation, when another with its ends is met, becomes the
stronger of the two. -/
theorem IsStrongest.strengthen (h : IsStrongest met x) (heq : x.ends = new.ends) :
    IsStrongest (met ++ [new]) (x.strengthen new.kind) := by
  obtain ⟨hold, hnew⟩ := le_strength_strengthen x new.kind
  constructor
  · rcases strengthen_eq_or heq with hx | hx <;> rw [hx]
    · exact List.mem_append_left _ h.1
    · exact List.mem_append_right _ (List.mem_singleton_self new)
  · intro y hy hends
    rcases List.mem_append.1 hy with hy | hy
    · exact Nat.le_trans (h.2 y hy hends) hold
    · exact List.mem_singleton.1 hy ▸ hnew

/-- The strongest relation with its ends is the only one. -/
theorem IsStrongest.eq {y : Relation} (hx : IsStrongest met x) (hy : IsStrongest met y)
    (heq : x.ends = y.ends) : x = y := by
  have hkind : x.kind = y.kind :=
    Kind.eq_of_strength_eq (Nat.le_antisymm (hy.2 x hx.1 heq) (hx.2 y hy.1 heq.symm))
  obtain ⟨kind, source, target⟩ := x
  obtain ⟨kind', source', target'⟩ := y
  cases heq
  cases hkind
  rfl

end Relation

/-! ## First occurrences -/

section

variable {α : Type} [BEq α] [LawfulBEq α] {l : List α} {a : α}

theorem eraseDups_append_of_mem (h : a ∈ l) : (l ++ [a]).eraseDups = l.eraseDups := by
  rw [List.eraseDups_append]
  simp [List.removeAll, h]

theorem eraseDups_append_of_not_mem (h : a ∉ l) :
    (l ++ [a]).eraseDups = l.eraseDups ++ [a] := by
  rw [List.eraseDups_append]
  simp [List.removeAll, h, List.eraseDups_cons]

end

namespace RelationSet

/-! ## Collecting -/

/-- What a set is to which relations were added one after the other. -/
structure Collects (s : RelationSet) (met : List Relation) : Prop where
  valid : s.Valid
  ends_eq : s.toList.map Relation.ends = (met.map Relation.ends).eraseDups
  strongest : ∀ x ∈ s.toList, Relation.IsStrongest met x

theorem collects_empty : empty.Collects [] where
  valid := valid_empty
  ends_eq := rfl
  strongest x hx := by simp [empty, toList] at hx

variable {s : RelationSet} {met : List Relation}

/-- Adding a relation whose ends were met before. -/
theorem Collects.add_again (h : s.Collects met) {new : Relation} {i : Nat}
    (hposition : s.position? new.ends = some i) : (s.add new).Collects (met ++ [new]) where
  valid := h.valid.add new
  ends_eq := by
    have hmet : new.ends ∈ met.map Relation.ends := by
      rw [← List.mem_eraseDups, ← h.ends_eq]
      exact Located.isSome_iff h.valid |>.1 (hposition ▸ rfl)
    rw [add_of_position? hposition, List.map_append, List.map_singleton,
      eraseDups_append_of_mem hmet, ← h.ends_eq]
    exact Located.map_key_modify (fun x => x.ends_strengthen new.kind) s.relations i
  strongest x hx := by
    obtain ⟨old, hold, hends⟩ := (h.valid new.ends i).1 hposition
    rw [add_of_position? hposition] at hx
    obtain ⟨j, hj⟩ := List.mem_iff_getElem?.1 hx
    rw [toList, Array.getElem?_toList, Array.getElem?_modify] at hj
    split at hj
    · next hij =>
        obtain ⟨y, hy, rfl⟩ := Option.map_eq_some_iff.1 hj
        rw [← hij, hold] at hy
        cases hy
        exact (h.strongest old (Array.mem_toList_iff.2 (Array.mem_of_getElem? hold))).strengthen
          hends
    · next hij =>
        have hold' := h.strongest x (Array.mem_toList_iff.2 (Array.mem_of_getElem? hj))
        exact hold'.append_of_ne fun heq =>
          hij (Located.eq_of_key_eq h.valid hold hj (hends.trans heq))

/-- Adding a relation whose ends are new. -/
theorem Collects.add_first (h : s.Collects met) {new : Relation}
    (hposition : s.position? new.ends = none) : (s.add new).Collects (met ++ [new]) := by
  have hfirst : new.ends ∉ met.map Relation.ends := by
    rw [← List.mem_eraseDups, ← h.ends_eq]
    intro hmem
    have := Located.isSome_iff h.valid |>.2 hmem
    rw [hposition] at this
    cases this
  have hlist : (s.add new).toList = s.toList ++ [new] := by
    rw [add_of_position?_eq_none hposition]
    exact Array.toList_push
  refine ⟨h.valid.add new, ?_, fun x hx => ?_⟩
  · rw [hlist, List.map_append, List.map_append, List.map_singleton,
      eraseDups_append_of_not_mem hfirst, h.ends_eq]
  · rw [hlist] at hx
    rcases List.mem_append.1 hx with hx | hx
    · refine (h.strongest x hx).append_of_ne fun heq => hfirst ?_
      exact heq ▸ List.mem_map_of_mem (h.strongest x hx).1
    · rw [List.mem_singleton.1 hx]
      exact Relation.isStrongest_first hfirst

/-- Adding one more relation. -/
theorem Collects.add (h : s.Collects met) (new : Relation) :
    (s.add new).Collects (met ++ [new]) := by
  cases hposition : s.position? new.ends with
  | some i => exact h.add_again hposition
  | none => exact h.add_first hposition

/-- Adding relations one after the other. -/
theorem Collects.foldl_add (h : s.Collects met) (more : List Relation) :
    (more.foldl RelationSet.add s).Collects (met ++ more) := by
  induction more generalizing s met with
  | nil => rwa [List.append_nil]
  | cons new more ih =>
      rw [List.foldl_cons, ← List.singleton_append, ← List.append_assoc]
      exact ih (h.add new)

/-- A set holds exactly the strongest of the relations that were added. -/
theorem Collects.mem_iff (h : s.Collects met) {x : Relation} :
    x ∈ s.toList ↔ Relation.IsStrongest met x := by
  refine ⟨h.strongest x, fun hx => ?_⟩
  have hends : x.ends ∈ s.toList.map Relation.ends := by
    rw [h.ends_eq, List.mem_eraseDups]
    exact List.mem_map_of_mem hx.1
  obtain ⟨y, hy, hsame⟩ := List.mem_map.1 hends
  rwa [hx.eq (h.strongest y hy) hsame.symm]

end RelationSet

namespace Registry

/-! ## References -/

/-- The ways in which a record refers to another. -/
inductive Refers (r : Registry) (t : TypeRecord) : Relation.Kind → TypeRecord → Prop
  | super {written : String} {u : TypeRecord} (hw : t.superName = some written)
      (h : r.resolve? t written = some u) : Refers r t .generalization u
  | interface {written : String} {u : TypeRecord} (hw : written ∈ t.interfaceNames)
      (h : r.resolve? t written = some u) : Refers r t .realization u
  | outer {u : TypeRecord} (h : r.outer? t = some u) : Refers r t .dependency u
  | field {f : Member} {written : String} {u : TypeRecord} (hf : f ∈ t.fields)
      (hw : f.type = some written) (h : r.resolve? t written = some u) :
      Refers r t .association u
  | result {m : Method} {written : String} {u : TypeRecord} (hm : m ∈ t.methods)
      (hw : m.type = some written) (h : r.resolve? t written = some u) : Refers r t .dependency u
  | parameter {m : Method} {v : Variable} {written : String} {u : TypeRecord} (hm : m ∈ t.methods)
      (hv : v ∈ m.parameters) (hw : v.type = some written) (h : r.resolve? t written = some u) :
      Refers r t .dependency u
  | localVariable {m : Method} {v : Variable} {written : String} {u : TypeRecord}
      (hm : m ∈ t.methods) (hv : v ∈ m.locals) (hw : v.type = some written)
      (h : r.resolve? t written = some u) : Refers r t .dependency u

theorem mem_typesOf_iff {m : Method} {type : Option String} :
    type ∈ typesOf m ↔ type = m.type ∨ (∃ v ∈ m.parameters, v.type = type) ∨
      ∃ v ∈ m.locals, v.type = type := by
  simp [typesOf]

/-- The references of a record are those to which it refers. -/
theorem mem_references_iff {r : Registry} {t u : TypeRecord} {kind : Relation.Kind} :
    (kind, u) ∈ r.references t ↔ r.Refers t kind u := by
  simp only [references, List.mem_append, List.mem_map, Option.mem_toList,
    List.mem_filterMap, List.mem_flatMap, super?, interfaces, resolveOptional?,
    Option.bind_eq_some_iff, Prod.mk.injEq, mem_typesOf_iff]
  constructor
  · rintro ((((⟨u, ⟨written, hw, h⟩, rfl, rfl⟩ | ⟨u, ⟨written, hw, h⟩, rfl, rfl⟩) |
      ⟨u, h, rfl, rfl⟩) | ⟨u, ⟨f, hf, written, hw, h⟩, rfl, rfl⟩) |
      ⟨u, ⟨type, ⟨m, hm, htype⟩, written, hw, h⟩, rfl, rfl⟩)
    · exact .super hw h
    · exact .interface hw h
    · exact .outer h
    · exact .field hf hw h
    · rcases htype with rfl | ⟨v, hv, rfl⟩ | ⟨v, hv, rfl⟩
      · exact .result hm hw h
      · exact .parameter hm hv hw h
      · exact .localVariable hm hv hw h
  · intro hrefers
    cases hrefers with
    | super hw h => exact .inl (.inl (.inl (.inl ⟨u, ⟨_, hw, h⟩, rfl, rfl⟩)))
    | interface hw h => exact .inl (.inl (.inl (.inr ⟨u, ⟨_, hw, h⟩, rfl, rfl⟩)))
    | outer h => exact .inl (.inl (.inr ⟨u, h, rfl, rfl⟩))
    | field hf hw h => exact .inl (.inr ⟨u, ⟨_, hf, _, hw, h⟩, rfl, rfl⟩)
    | result hm hw h => exact .inr ⟨u, ⟨_, ⟨_, hm, .inl rfl⟩, _, hw, h⟩, rfl, rfl⟩
    | parameter hm hv hw h =>
        exact .inr ⟨u, ⟨_, ⟨_, hm, .inr (.inl ⟨_, hv, rfl⟩)⟩, _, hw, h⟩, rfl, rfl⟩
    | localVariable hm hv hw h =>
        exact .inr ⟨u, ⟨_, ⟨_, hm, .inr (.inr ⟨_, hv, rfl⟩)⟩, _, hw, h⟩, rfl, rfl⟩

/-- The records that a record refers to, as going through it meets them: its
super type, its interfaces, the type around it, the types of its fields, and
for each method its own type and those of its parameters and local variables. -/
def walk (r : Registry) (t : TypeRecord) : List TypeRecord :=
  (t.superName.bind (r.resolve? t)).toList ++ t.interfaceNames.filterMap (r.resolve? t) ++
    (r.outer? t).toList ++ (t.fields.filterMap fun f => f.type.bind (r.resolve? t)) ++
    t.methods.flatMap fun m =>
      (m.type.bind (r.resolve? t)).toList ++
        (m.parameters.filterMap fun v => v.type.bind (r.resolve? t)) ++
        m.locals.filterMap fun v => v.type.bind (r.resolve? t)

theorem filterMap_typesOf (r : Registry) (t : TypeRecord) (m : Method) :
    (typesOf m).filterMap (r.resolveOptional? t) =
      (m.type.bind (r.resolve? t)).toList ++
        (m.parameters.filterMap fun v => v.type.bind (r.resolve? t)) ++
        m.locals.filterMap fun v => v.type.bind (r.resolve? t) := by
  have hresult : r.resolveOptional? t m.type = m.type.bind (r.resolve? t) := rfl
  rw [typesOf, List.filterMap_cons, hresult, List.filterMap_append, List.filterMap_map,
    List.filterMap_map]
  cases m.type.bind (r.resolve? t) <;> rfl

/-- The references come in the order in which they are met. -/
theorem map_references (r : Registry) (t : TypeRecord) :
    (r.references t).map Prod.snd = r.walk t := by
  simp only [references, walk, List.map_append, List.map_map, Function.comp_def, List.map_id_fun',
    id_eq, List.filterMap_flatMap, filterMap_typesOf, super?, interfaces, resolveOptional?]

/-- What a record refers to is registered. -/
theorem Refers.mem {r : Registry} (hr : r.Valid) {t u : TypeRecord} {kind : Relation.Kind}
    (h : r.Refers t kind u) : u ∈ r.toList := by
  cases h with
  | outer h => exact (hr.outer?_eq_some_iff.1 h).2.1
  | super _ h | interface _ h | field _ _ h | result _ _ h | parameter _ _ _ h
  | localVariable _ _ _ h => exact hr.mem_of_resolve? h

theorem mem_mentions_iff {r : Registry} {x : Relation} :
    x ∈ r.mentions ↔
      ∃ t ∈ r.toList, ∃ u, r.Refers t x.kind u ∧ x.ends = (t.fullName, u.fullName) := by
  simp only [mentions, List.mem_flatMap, List.mem_map]
  constructor
  · rintro ⟨t, ht, ⟨kind, u⟩, he, rfl⟩
    exact ⟨t, ht, u, mem_references_iff.1 he, rfl⟩
  · rintro ⟨t, ht, u, hrefers, hends⟩
    obtain ⟨kind, source, target⟩ := x
    cases hends
    exact ⟨t, ht, (kind, u), mem_references_iff.2 hrefers, rfl⟩

/-- The relations are collected from the references. -/
theorem relations_eq (r : Registry) :
    ∃ s : RelationSet, s.Collects r.mentions ∧ r.relations = s.toList :=
  ⟨_, RelationSet.collects_empty.foldl_add r.mentions, rfl⟩

/-- **The relations are the references, once for each pair and at their
strongest.**  In a registry that was built no two relations have the same ends.
There is one from a record to another exactly if the first refers to the
second, and every relation is between registered records, of the strongest kind
of reference between them.  The relations come in the order in which their ends
are first met when one goes through the records and walks each. -/
theorem Built.relations_exact {r : Registry} (h : r.Built) :
    (r.relations.map Relation.ends).Nodup ∧
    (∀ a ∈ r.toList, ∀ b ∈ r.toList,
      (a.fullName, b.fullName) ∈ r.relations.map Relation.ends ↔ ∃ kind, r.Refers a kind b) ∧
    (∀ x ∈ r.relations, ∃ a ∈ r.toList, ∃ b ∈ r.toList, x.ends = (a.fullName, b.fullName) ∧
      r.Refers a x.kind b ∧ ∀ kind, r.Refers a kind b → kind.strength ≤ x.kind.strength) ∧
    r.relations.map Relation.ends =
      (r.toList.flatMap fun t =>
        (r.walk t).map fun u => (t.fullName, u.fullName)).eraseDups := by
  obtain ⟨s, hs, heq⟩ := r.relations_eq
  rw [heq]
  refine ⟨Located.nodup_keys hs.valid, fun a ha b hb => ?_, fun x hx => ?_, ?_⟩
  · rw [hs.ends_eq, List.mem_eraseDups, List.mem_map]
    constructor
    · rintro ⟨x, hx, hends⟩
      obtain ⟨t, ht, u, hrefers, hends'⟩ := mem_mentions_iff.1 hx
      obtain ⟨hat, hbu⟩ := Prod.mk.inj (hends.symm.trans hends')
      rw [h.valid.eq_of_fullName_eq ha ht hat,
        h.valid.eq_of_fullName_eq hb (hrefers.mem h.valid) hbu]
      exact ⟨x.kind, hrefers⟩
    · rintro ⟨kind, hrefers⟩
      exact ⟨⟨kind, a.fullName, b.fullName⟩,
        mem_mentions_iff.2 ⟨a, ha, b, hrefers, rfl⟩, rfl⟩
  · obtain ⟨hmem, hstrongest⟩ := hs.strongest x hx
    obtain ⟨a, ha, b, hrefers, hends⟩ := mem_mentions_iff.1 hmem
    refine ⟨a, ha, b, hrefers.mem h.valid, hends, hrefers, fun kind hkind => ?_⟩
    exact hstrongest ⟨kind, a.fullName, b.fullName⟩
      (mem_mentions_iff.2 ⟨a, ha, b, hkind, rfl⟩) hends.symm
  · rw [hs.ends_eq, mentions, List.map_flatMap]
    simp only [← map_references, List.map_map, Function.comp_def, Relation.ends]

/-- A class that uses another in a method and has a field of it. -/
def car : TypeRecord :=
  let ofEngine := Member.declare .privateAccess "engine" (some "Engine") false false
  ((TypeRecord.start "garage.Car" .classType).addMethod ⟨ofEngine, [], []⟩).addField ofEngine

/-- The other class. -/
def engine : TypeRecord := .start "garage.Engine" .classType

/-- Of two references to one type the stronger is the relation. -/
theorem relations_exact_garage :
    ((empty.append car).append engine).Built ∧
      ((empty.append car).append engine).relations =
        [⟨.association, "garage.Car", "garage.Engine"⟩] ∧
      ∃ kind, ((empty.append car).append engine).Refers car kind engine := by
  have hbuilt : ((empty.append car).append engine).Built :=
    (Built.empty.append (by decide +kernel)).append (by decide +kernel)
  have hrelations : ((empty.append car).append engine).relations =
      [⟨.association, "garage.Car", "garage.Engine"⟩] := by decide +kernel
  obtain ⟨_, hrefers, _, _⟩ := hbuilt.relations_exact
  refine ⟨hbuilt, hrelations, (hrefers car (by simp) engine (by simp)).1 ?_⟩
  rw [hrelations]
  decide +kernel

end Registry

end JavaOutline
