import JavaOutline.Proofs.Scopes
import JavaOutline.Proofs.TypeForest
import Mathlib.Data.List.Nodup

/-!
# JavaOutline.Proofs.Siblings

Types that are nested in one type, seen from each other.

The types nested in a type are those that stand directly in it in the forest of the
text (`TypeForest.Nested.exists_of_nestedIn`), and the table of each of them is told by
the table with which the type around starts and by the siblings before
(`TypeForest.Nested.candidate_of_sibling`).  A sibling is found there at once if it came
before.  If it comes later, the name is looked up with what the type around was
entered with; the type around itself, which knows all of them in the end, is asked
only if nothing is registered under what was found.

`Registry.readText_siblings` says from this when a sibling is found.
-/

namespace JavaOutline

/-! ## Order -/

/-- In a list without repetition two entries are in one order. -/
theorem List.Nodup.not_sublist_swap {α : Type} {l : List α} {a b : α} (h : l.Nodup)
    (hab : [a, b].Sublist l) : ¬[b, a].Sublist l := by
  intro hba
  induction l with
  | nil => cases hab
  | cons x l ih =>
      obtain ⟨hx, hl⟩ := List.nodup_cons.1 h
      cases hab with
      | cons _ hab =>
          cases hba with
          | cons _ hba => exact ih hl hab hba
          | cons_cons _ hba => exact hx (hab.subset (by simp))
      | cons_cons _ hab =>
          cases hba with
          | cons _ hba => exact hx (hba.subset (by simp))
          | cons_cons _ hba => exact hx (hab.subset (by simp))

/-! ## Nested records -/

namespace TypeRecord

/-- A record tells that its type is nested in that of another. -/
def NestedIn (t outer : TypeRecord) : Prop :=
  t.packagePath = outer.fullName ∧ t.outerName = some outer.name

instance (t outer : TypeRecord) : Decidable (t.NestedIn outer) :=
  inferInstanceAs (Decidable (_ ∧ _))

theorem NestedIn.fullName_eq {t outer : TypeRecord} (h : t.NestedIn outer) :
    t.fullName = qualify outer.fullName t.name :=
  congrArg (qualify · t.name) h.1

/-- No type is nested in itself. -/
theorem HasSimpleName.packagePath_ne_fullName {t : TypeRecord} (h : t.HasSimpleName) :
    t.packagePath ≠ t.fullName := by
  intro hsame
  have hlt := Registry.length_packagePath_lt_fullName h.fullName_ne_empty
  exact absurd hlt (hsame ▸ Nat.lt_irrefl _)

@[simp] theorem name_learn (t : TypeRecord) (entries : List (String × String)) :
    (t.learn entries).name = t.name :=
  (congrArg TypeRecord.name (t.heading_learn entries) :)

@[simp] theorem packagePath_learn (t : TypeRecord) (entries : List (String × String)) :
    (t.learn entries).packagePath = t.packagePath :=
  (congrArg TypeRecord.packagePath (t.heading_learn entries) :)

/-- What a name means that is learned with one meaning only. -/
theorem get?_learn (t : TypeRecord) {entries : List (String × String)} {short full : String}
    (h : ∀ e ∈ entries, e.1 = short → e.2 = full) :
    (t.learn entries).imports.get? short =
      if short ∈ entries.map Prod.fst then some full else t.imports.get? short := by
  induction entries generalizing t with
  | nil => rfl
  | cons entry entries ih =>
      have hlearn : t.learn (entry :: entries) = (t.addImport entry.1 entry.2).learn entries := rfl
      have hentry := h entry List.mem_cons_self
      rw [hlearn, ih _ fun e he => h e (List.mem_cons_of_mem _ he)]
      simp only [addImport, ImportTable.get?_insert, List.map_cons, List.mem_cons]
      grind

end TypeRecord

namespace TypeForest

open Registry (candidate)

variable {f : TypeForest} {n u : TypeNode} {outer : Option TypeRecord} {t : TypeRecord}

/-- The types that are in no other come in order. -/
theorem direct_sublist_nodes (f : TypeForest) : f.direct.Sublist f.nodes := by
  induction f with
  | nil => exact .slnil
  | cons start record inner rest _ ih =>
      exact (ih.cons_cons _).trans (List.sublist_append_right inner.nodes _)

/-- The types in a type come in order. -/
theorem nodes_inner_sublist (h : n ∈ f.nodes) : n.inner.nodes.Sublist f.nodes := by
  induction f with
  | nil => cases h
  | cons start record inner rest ihinner ihrest =>
      rw [nodes, List.mem_append, List.mem_cons] at h
      rcases h with h | rfl | h
      · exact (ihinner h).trans (List.sublist_append_left _ _)
      · exact List.sublist_append_left _ _
      · exact ((ihrest h).cons _).trans (List.sublist_append_right _ _)

theorem mem_of_direct (hu : u ∈ f.nodes) (hn : n ∈ u.inner.direct) : n ∈ f.nodes :=
  (nodes_inner_sublist hu).subset ((direct_sublist_nodes u.inner).subset hn)

/-- A type is in no other, or directly in another. -/
theorem mem_direct_or_inner (h : n ∈ f.nodes) :
    n ∈ f.direct ∨ ∃ u ∈ f.nodes, n ∈ u.inner.direct := by
  induction f with
  | nil => cases h
  | cons start record inner rest ihinner ihrest =>
      simp only [nodes, direct, List.mem_append, List.mem_cons] at h ⊢
      rcases h with h | rfl | h
      · rcases ihinner h with hdirect | ⟨u, hu, hn⟩
        · exact .inr ⟨_, .inr (.inl rfl), hdirect⟩
        · exact .inr ⟨u, .inl hu, hn⟩
      · exact .inl (.inl rfl)
      · rcases ihrest h with hdirect | ⟨u, hu, hn⟩
        · exact .inl (.inr hdirect)
        · exact .inr ⟨u, .inr (.inr hu), hn⟩

namespace Nested

/-- A type of a forest, with the types in it. -/
theorem of_mem (h : f.Nested outer) (hn : n ∈ f.nodes) :
    n.start.HasSimpleName ∧ n.record.bare = n.start.learn n.inner.entries ∧
      n.inner.Nested (some n.start) := by
  induction h with
  | nil => cases hn
  | cons simple _ _ complete inside _ ihinside ihafter =>
      rw [nodes, List.mem_append, List.mem_cons] at hn
      rcases hn with hn | rfl | hn
      · exact ihinside hn
      · exact ⟨simple, complete, inside⟩
      · exact ihafter hn

/-- What the type around is called. -/
theorem of_mem_direct (h : f.Nested outer) (hn : n ∈ f.direct) :
    n.start.outerName = outer.map TypeRecord.name ∧
      ∀ t ∈ outer, n.start.packagePath = t.fullName := by
  induction h with
  | nil => cases hn
  | @cons outer _ _ _ _ _ outerName knows _ _ _ _ ihafter =>
      rw [direct, List.mem_cons] at hn
      rcases hn with rfl | hn
      · exact ⟨outerName, fun t ht => (knows t ht).1⟩
      · cases outer <;> simpa using ihafter hn

/-- A type starts with what the type around it started with, what was entered in that
before, and itself. -/
theorem imports_start {before after : List TypeNode} (h : f.Nested (some t))
    (hsplit : f.direct = before ++ n :: after) :
    n.start.imports =
      (t.learn (before.map TypeNode.entry)).imports.insert n.start.name n.start.fullName := by
  induction f generalizing t before with
  | nil => simp [direct] at hsplit
  | cons start record inner rest _ ih =>
      cases h with
      | cons _ _ knows _ _ hafter =>
          cases before with
          | nil =>
              cases hsplit
              exact (knows t rfl).2
          | cons first before =>
              obtain ⟨rfl, hrest⟩ := List.cons.inj hsplit
              have hlater := ih hafter hrest
              exact hlater

/-- A type has the names that it starts with, and knows in the end what it starts with
and the types that are directly in it. -/
theorem names_record (h : f.Nested outer) (hn : n ∈ f.nodes) :
    n.record.packagePath = n.start.packagePath ∧ n.record.name = n.start.name ∧
      n.record.outerName = n.start.outerName ∧ n.record.fullName = n.start.fullName ∧
      n.record.imports = (n.start.learn n.inner.entries).imports := by
  obtain ⟨-, hcomplete, -⟩ := h.of_mem hn
  have hnames : n.record.bare.packagePath = n.start.packagePath ∧
      n.record.bare.name = n.start.name ∧ n.record.bare.outerName = n.start.outerName ∧
      n.record.bare.fullName = n.start.fullName ∧
      n.record.bare.imports = (n.start.learn n.inner.entries).imports := by
    rw [hcomplete]
    simp
  exact hnames

theorem simple_record (h : f.Nested outer) (hn : n ∈ f.nodes) : n.record.HasSimpleName := by
  rw [TypeRecord.HasSimpleName, (h.names_record hn).2.1]
  exact (h.of_mem hn).1

/-- What a type is called that stands directly in another. -/
theorem entry_of_mem_direct (h : f.Nested (some t)) (hn : n ∈ f.direct) :
    n.entry = (n.start.name, qualify t.fullName n.start.name) := by
  rw [TypeNode.entry, TypeRecord.fullName, (h.of_mem_direct hn).2 t rfl]

/-- What a simple name means that the types directly in a type have been learned
with. -/
theorem get?_learn_direct (h : f.Nested (some t)) {siblings : List TypeNode}
    (hsub : siblings ⊆ f.direct) (short : String) :
    (t.learn (siblings.map TypeNode.entry)).imports.get? short =
      if ∃ n ∈ siblings, n.start.name = short then some (qualify t.fullName short)
      else t.imports.get? short := by
  have hone : ∀ e ∈ siblings.map TypeNode.entry, e.1 = short → e.2 = qualify t.fullName short := by
    intro e he hshort
    obtain ⟨n, hn, rfl⟩ := List.mem_map.1 he
    rw [h.entry_of_mem_direct (hsub hn)] at hshort ⊢
    rw [← hshort]
  rw [TypeRecord.get?_learn t hone]
  simp [TypeNode.entry]

/-- A type that stands directly in another is nested in it. -/
theorem nestedIn_of_mem (h : f.Nested outer) (hu : u ∈ f.nodes) (hn : n ∈ u.inner.direct) :
    n.record.NestedIn u.record := by
  have hmem := mem_of_direct hu hn
  obtain ⟨hpath, -, houter, -, -⟩ := h.names_record hmem
  obtain ⟨-, hname, -, hfull, -⟩ := h.names_record hu
  obtain ⟨hname', hpath'⟩ := (h.of_mem hu).2.2.of_mem_direct hn
  constructor
  · rw [hpath, hpath' u.start rfl, hfull]
  · rw [houter, hname', hname, Option.map_some]

/-- In the end a type means by a name the type of that name directly in it. -/
theorem candidate_of_mem (h : f.Nested outer) (hu : u ∈ f.nodes) (hn : n ∈ u.inner.direct) :
    candidate u.record n.record.name = n.record.fullName := by
  obtain ⟨-, -, -, hfull, himports⟩ := h.names_record hu
  obtain ⟨-, hname, -⟩ := h.names_record (mem_of_direct hu hn)
  rw [candidate, himports, entries,
    (h.of_mem hu).2.2.get?_learn_direct (List.Subset.refl _), if_pos ⟨n, hn, hname.symm⟩,
    Option.getD_some, (h.nestedIn_of_mem hu hn).fullName_eq, hfull]

/-- A type that stands directly in another means by a name that it and its own types do
not have an earlier sibling, or else what the other type started with. -/
theorem candidate_of_split (h : f.Nested outer) (hu : u ∈ f.nodes) {before after : List TypeNode}
    (hsplit : u.inner.direct = before ++ n :: after) {short : String}
    (hne : n.record.name ≠ short) (hno : ∀ m ∈ n.inner.direct, m.record.name ≠ short) :
    candidate n.record short =
      if ∃ m ∈ before, m.record.name = short then qualify u.record.fullName short
      else (u.start.imports.get? short).getD (qualify u.record.fullName short) := by
  have hn : n ∈ u.inner.direct := hsplit ▸ List.mem_append_right _ List.mem_cons_self
  have hmem := mem_of_direct hu hn
  have hbefore : before ⊆ u.inner.direct := hsplit ▸ List.subset_append_left _ _
  obtain ⟨-, hname, -, -, himports⟩ := h.names_record hmem
  obtain ⟨-, -, -, hfull, -⟩ := h.names_record hu
  have hnone : ¬∃ m ∈ n.inner.direct, m.start.name = short := fun ⟨m, hm, hshort⟩ =>
    hno m hm ((h.names_record (mem_of_direct hmem hm)).2.1.trans hshort)
  have hsame : (∃ m ∈ before, m.start.name = short) ↔ ∃ m ∈ before, m.record.name = short :=
    exists_congr fun m => and_congr_right fun hm => by
      rw [(h.names_record (mem_of_direct hu (hbefore hm))).2.1]
  rw [candidate, himports, entries, (h.of_mem hmem).2.2.get?_learn_direct (List.Subset.refl _),
    if_neg hnone, (h.of_mem hu).2.2.imports_start hsplit, ImportTable.get?_insert,
    if_neg (hname ▸ hne), (h.of_mem hu).2.2.get?_learn_direct hbefore, hfull,
    (h.nestedIn_of_mem hu hn).1, hfull, ite_congr hsame.eq (fun _ => rfl) fun _ => rfl]
  split <;> rfl

end Nested

/-- Types of one full name are the same, if full names are distinct. -/
theorem eq_of_fullName_eq (hdistinct : (f.records.map TypeRecord.fullName).Nodup)
    (hn : n ∈ f.nodes) (hu : u ∈ f.nodes) (h : n.record.fullName = u.record.fullName) : n = u := by
  rw [records, List.map_map] at hdistinct
  exact List.inj_on_of_nodup_map hdistinct hn hu h

/-- A type that is nested in another stands directly in it, if full names are
distinct. -/
theorem Nested.exists_of_nestedIn (h : f.Nested none)
    (hdistinct : (f.records.map TypeRecord.fullName).Nodup) {a : TypeRecord} (ha : a ∈ f.records)
    (hu : u ∈ f.nodes) (hin : a.NestedIn u.record) : ∃ n ∈ u.inner.direct, n.record = a := by
  obtain ⟨n, hn, rfl⟩ := List.mem_map.1 ha
  rcases mem_direct_or_inner hn with hdirect | ⟨u', hu', hdirect⟩
  · obtain ⟨-, -, houter, -, -⟩ := h.names_record hn
    rw [TypeRecord.NestedIn, houter, (h.of_mem_direct hdirect).1] at hin
    cases hin.2
  · have hsame : u'.record.fullName = u.record.fullName :=
      (h.nestedIn_of_mem hu' hdirect).1.symm.trans hin.1
    exact ⟨n, eq_of_fullName_eq hdistinct hu' hu hsame ▸ hdirect, rfl⟩

/-- Types directly in one type have distinct names, if full names are distinct. -/
theorem Nested.eq_of_name_eq (h : f.Nested outer)
    (hdistinct : (f.records.map TypeRecord.fullName).Nodup) (hu : u ∈ f.nodes) {m : TypeNode}
    (hm : m ∈ u.inner.direct) (hn : n ∈ u.inner.direct) (hname : m.record.name = n.record.name) :
    m = n := by
  refine eq_of_fullName_eq hdistinct (mem_of_direct hu hm) (mem_of_direct hu hn) ?_
  rw [(h.nestedIn_of_mem hu hm).fullName_eq, (h.nestedIn_of_mem hu hn).fullName_eq, hname]

/-- Of two types directly in a third, the records are in the order of the types. -/
theorem sublist_records_iff (hdistinct : (f.records.map TypeRecord.fullName).Nodup)
    (hu : u ∈ f.nodes) {before after : List TypeNode} {m : TypeNode}
    (hsplit : u.inner.direct = before ++ n :: after) (hm : m ∈ u.inner.direct) (hne : m ≠ n) :
    [m.record, n.record].Sublist f.records ↔ m ∈ before := by
  have hinside : (before ++ n :: after).Sublist f.nodes :=
    hsplit ▸ (direct_sublist_nodes u.inner).trans (nodes_inner_sublist hu)
  have hrecords := hinside.map TypeNode.record
  constructor
  · intro hpair
    rw [hsplit, List.mem_append, List.mem_cons] at hm
    rcases hm with hm | hm | hm
    · exact hm
    · exact absurd hm hne
    · have hlater : [n, m].Sublist (before ++ n :: after) :=
        ((List.singleton_sublist.2 hm).cons_cons n).trans (List.sublist_append_right before _)
      have hnodup : f.records.Nodup := .of_map _ hdistinct
      exact absurd hpair (List.Nodup.not_sublist_swap hnodup ((hlater.map _).trans hrecords))
  · intro hm
    have hbefore : [m, n].Sublist (before ++ n :: after) :=
      (List.singleton_sublist.2 hm).append ((List.nil_sublist after).cons_cons n)
    exact (hbefore.map TypeNode.record).trans hrecords

namespace Nested

/-- A type in one of two siblings is not the other. -/
theorem fullName_inner_ne (h : f.Nested outer) (hu : u ∈ f.nodes) {m b : TypeNode}
    (hn : n ∈ u.inner.direct) (hb : b ∈ u.inner.direct) (hm : m ∈ n.inner.direct) :
    m.record.fullName ≠ b.record.fullName := by
  have hmemn := mem_of_direct hu hn
  intro hsame
  have hpath : m.record.packagePath = b.record.packagePath :=
    ((h.simple_record (mem_of_direct hmemn hm)).names_eq
      (h.simple_record (mem_of_direct hu hb)) hsame).1
  rw [(h.nestedIn_of_mem hmemn hm).1, (h.nestedIn_of_mem hu hb).1,
    ← (h.nestedIn_of_mem hu hn).1] at hpath
  exact (h.simple_record hmemn).packagePath_ne_fullName hpath.symm

/-- Which names the types nested in a type have is to be seen from those directly in it. -/
theorem forall_nestedIn_iff (h : f.Nested none)
    (hdistinct : (f.records.map TypeRecord.fullName).Nodup) (hn : n ∈ f.nodes) (short : String) :
    (∀ c ∈ f.records, c.NestedIn n.record → c.name ≠ short) ↔
      ∀ m ∈ n.inner.direct, m.record.name ≠ short := by
  constructor
  · intro hno m hm
    exact hno m.record (List.mem_map_of_mem (mem_of_direct hn hm)) (h.nestedIn_of_mem hn hm)
  · intro hno c hc hin
    obtain ⟨m, hm, rfl⟩ := h.exists_of_nestedIn hdistinct hc hn hin
    exact hno m hm

/-- A type means by the name of a sibling the sibling, if that comes before it, or else
what the type around them started with, unless it has a type of this name itself. -/
theorem candidate_of_sibling (h : f.Nested outer)
    (hdistinct : (f.records.map TypeRecord.fullName).Nodup) (hu : u ∈ f.nodes)
    {before after : List TypeNode} (hsplit : u.inner.direct = before ++ n :: after) {b : TypeNode}
    (hb : b ∈ u.inner.direct) (hne : b ≠ n)
    (hno : ∀ m ∈ n.inner.direct, m.record.name ≠ b.record.name) :
    (b ∈ before → candidate n.record b.record.name = b.record.fullName) ∧
      (b ∉ before → candidate n.record b.record.name =
        (u.start.imports.get? b.record.name).getD b.record.fullName) := by
  have hn : n ∈ u.inner.direct := hsplit ▸ List.mem_append_right _ List.mem_cons_self
  have hnames : n.record.name ≠ b.record.name := fun hsame =>
    hne (h.eq_of_name_eq hdistinct hu hb hn hsame.symm)
  have hearlier : (∃ m ∈ before, m.record.name = b.record.name) ↔ b ∈ before := by
    refine ⟨fun ⟨m, hm, hmname⟩ => ?_, fun hbefore => ⟨b, hbefore, rfl⟩⟩
    have hmu : m ∈ u.inner.direct := hsplit ▸ List.mem_append_left _ hm
    exact h.eq_of_name_eq hdistinct hu hmu hb hmname ▸ hm
  rw [h.candidate_of_split hu hsplit hnames hno, ← (h.nestedIn_of_mem hu hb).fullName_eq]
  exact ⟨fun hbefore => if_pos (hearlier.2 hbefore), fun hbefore => if_neg (mt hearlier.1 hbefore)⟩

end Nested

end TypeForest

namespace Registry

/-- A text whose types have distinct full names leaves its outline in an empty
registry. -/
theorem toList_readText_of_nodup {withLocals : Bool} {text : String}
    (h : ((outline withLocals text).map TypeRecord.fullName).Nodup) :
    (empty.readText withLocals text).1.toList = outline withLocals text := by
  have hfresh : empty.fresh (outline withLocals text) = outline withLocals text :=
    fresh_eq_self_iff.2 ⟨h, fun t _ => contains_empty t.fullName⟩
  simp [readText_eq, hfresh]

/-- What a name means inside a type that the type around knows: what the type itself
knows under the name, if that is registered, or else what the type around knows. -/
theorem Valid.resolve?_eq_or {r : Registry} (h : r.Valid) {a t b : TypeRecord}
    (ho : r.outer? a = some t) (hbase : baseName b.name = b.name) (hne : b.name ≠ "")
    (hknown : r.get? (candidate t b.name) = some b) :
    r.resolve? a b.name = (r.get? (candidate a b.name)).or (some b) := by
  have hfirst : ∃ outer, r.enclosing t = t :: outer := by
    cases hto : r.outer? t with
    | none => exact ⟨[], enclosing_of_outer?_eq_none hto⟩
    | some outer => exact ⟨_, h.enclosing_eq hto⟩
  obtain ⟨outer, hfirst⟩ := hfirst
  rw [resolve?_of_baseName_ne_empty r a (hbase.symm ▸ hne), hbase, h.enclosing_eq ho, hfirst,
    List.findSome?_cons, List.findSome?_cons, hknown]
  cases r.get? (candidate a b.name) <;> rfl

/-- What is registered under a name is some record exactly if the name is that of the
record. -/
theorem Valid.or_get?_eq_iff {r : Registry} (h : r.Valid) {b : TypeRecord} (hb : b ∈ r.toList)
    (full : String) :
    (r.get? full).or (some b) = some b ↔ (r.contains full = true → full = b.fullName) := by
  cases hget : r.get? full with
  | none => simp [h.get?_eq_none_iff.1 hget]
  | some u =>
      obtain ⟨hu, hname⟩ := h.get?_eq_some_iff.1 hget
      have htaken : r.contains full = true := h.contains_iff.2 (hname ▸ List.mem_map_of_mem hu)
      simp only [Option.some_or, Option.some.injEq, htaken, forall_const]
      constructor
      · rintro rfl
        exact hname.symm
      · intro hfull
        exact h.eq_of_fullName_eq hu hb (hname.trans hfull)

/-- Inside of a type of a forest that is registered the name of a sibling means the
sibling exactly if what the type itself knows under the name is the sibling, or is not
registered. -/
theorem Valid.resolve?_sibling_iff {r : Registry} (h : r.Valid) {f : TypeForest}
    (hlist : r.toList = f.records) (hf : f.Nested none) {u n b : TypeNode} (hu : u ∈ f.nodes)
    (hn : n ∈ u.inner.direct) (hb : b ∈ u.inner.direct)
    (hbase : baseName b.record.name = b.record.name) :
    r.resolve? n.record b.record.name = some b.record ↔
      (r.contains (candidate n.record b.record.name) = true →
        candidate n.record b.record.name = b.record.fullName) := by
  have hpath := (hf.nestedIn_of_mem hu hn).1
  have hmemb := TypeForest.mem_of_direct hu hb
  have hregistered : b.record ∈ r.toList := hlist ▸ List.mem_map_of_mem hmemb
  have houter : r.outer? n.record = some u.record :=
    h.outer?_eq_some_iff.2 ⟨hpath ▸ (hf.simple_record hu).fullName_ne_empty,
      hlist ▸ List.mem_map_of_mem hu, hpath.symm⟩
  -- The type around knows its types in the end.
  have hknown : r.get? (candidate u.record b.record.name) = some b.record :=
    h.get?_eq_some_iff.2 ⟨hregistered, (hf.candidate_of_mem hu hb).symm⟩
  rw [h.resolve?_eq_or houter hbase (hf.simple_record hmemb).1 hknown,
    h.or_get?_eq_iff hregistered]

/-- **When a sibling is found.**  In a text whose clauses stand at file level and
whose types have distinct full names, let `T` be a type and `a` and `b` two types nested
in it.  Inside of `a` the simple name of `b` means `b` exactly if no type nested in `a`
has this name and

* `b` comes before `a`, or
* the name has no other meaning in what `T` starts with, or one that is not registered. -/
theorem readText_siblings {withLocals : Bool} {text : String}
    (htidy : ∀ v ∈ Progress.start.visits withLocals text.toList, v.Tidy withLocals)
    (hdistinct : ((outline withLocals text).map TypeRecord.fullName).Nodup)
    {T : TypeNode} (hT : T ∈ (Progress.start.types withLocals text.toList).nodes)
    {a b : TypeRecord} (ha : a ∈ outline withLocals text) (hb : b ∈ outline withLocals text)
    (hat : a.NestedIn T.record) (hbt : b.NestedIn T.record) (hne : a ≠ b)
    (hbase : baseName b.name = b.name) :
    let r := (empty.readText withLocals text).1
    r.resolve? a b.name = some b ↔
      (∀ c ∈ outline withLocals text, c.NestedIn a → c.name ≠ b.name) ∧
      ([b, a].Sublist (outline withLocals text) ∨
        ∀ full, T.start.imports.get? b.name = some full → r.contains full = true →
          full = b.fullName) := by
  intro r
  have hlist : r.toList = outline withLocals text := toList_readText_of_nodup hdistinct
  have hvalid : r.Valid := (Built.readText .empty withLocals text).valid
  rw [Progress.outline_eq_records] at *
  obtain ⟨hf, -⟩ := Progress.nested_types Progress.settled_start htidy
  have hf : (Progress.start.types withLocals text.toList).Nested none := hf
  generalize Progress.start.types withLocals text.toList = f at *
  obtain ⟨A, hA, rfl⟩ := hf.exists_of_nestedIn hdistinct ha hT hat
  obtain ⟨B, hB, rfl⟩ := hf.exists_of_nestedIn hdistinct hb hT hbt
  have hmemA := TypeForest.mem_of_direct hT hA
  have hBA : B ≠ A := fun hsame => hne (congrArg TypeNode.record hsame.symm)
  rw [hvalid.resolve?_sibling_iff hlist hf hT hA hB hbase,
    hf.forall_nestedIn_iff hdistinct hmemA]
  by_cases hno : ∀ m ∈ A.inner.direct, m.record.name ≠ B.record.name
  · obtain ⟨before, after, hsplit⟩ := List.append_of_mem hA
    obtain ⟨hearlier, hlater⟩ := hf.candidate_of_sibling hdistinct hT hsplit hB hBA hno
    rw [and_iff_right hno, TypeForest.sublist_records_iff hdistinct hT hsplit hB hBA]
    by_cases hbefore : B ∈ before
    · simp [hearlier hbefore, hbefore]
    · rw [hlater hbefore]
      cases hstart : T.start.imports.get? B.record.name <;> simp [hbefore]
  · -- A type of that name in `a` hides the sibling, and is another.
    refine iff_of_false (fun hfound => ?_) (fun hboth => hno hboth.1)
    push Not at hno
    obtain ⟨m, hm, hmname⟩ := hno
    have hmr : m.record ∈ r.toList :=
      hlist ▸ List.mem_map_of_mem (TypeForest.mem_of_direct hmemA hm)
    rw [← hmname, hf.candidate_of_mem hmemA hm] at hfound
    exact hf.fullName_inner_ne hT hA hB hm
      (hfound (hvalid.contains_iff.2 (List.mem_map_of_mem hmr)))

/-- A class with two classes in it, in a file that imports a type of the name of the
second from elsewhere. -/
def importedSibling : String := "import x.B ; class T \x7b class A \x7b \x7d class B \x7b \x7d \x7d"

/-- The sibling is found, since there is no record of the imported type. -/
theorem readText_siblings_imported :
    (∀ v ∈ Progress.start.visits true importedSibling.toList, v.Tidy true) ∧
      ((outline true importedSibling).map TypeRecord.fullName).Nodup ∧
      ∃ T ∈ (Progress.start.types true importedSibling.toList).nodes,
        ∃ a ∈ outline true importedSibling, ∃ b ∈ outline true importedSibling,
          a.NestedIn T.record ∧ b.NestedIn T.record ∧ a ≠ b ∧ baseName b.name = b.name ∧
            T.start.imports.get? b.name = some "x.B" ∧
            (empty.readText true importedSibling).1.resolve? a b.name = some b := by
  have htidy : ∀ v ∈ Progress.start.visits true importedSibling.toList, v.Tidy true := by
    decide +kernel
  have hdistinct : ((outline true importedSibling).map TypeRecord.fullName).Nodup := by
    decide +kernel
  have htypes : ∃ T ∈ (Progress.start.types true importedSibling.toList).nodes,
      ∃ a ∈ outline true importedSibling, ∃ b ∈ outline true importedSibling,
        a.NestedIn T.record ∧ b.NestedIn T.record ∧ a ≠ b ∧ baseName b.name = b.name ∧
          T.start.imports.get? b.name = some "x.B" ∧
          ∀ c ∈ outline true importedSibling, c.NestedIn a → c.name ≠ b.name := by
    decide +kernel
  have hfree : (empty.readText true importedSibling).1.contains "x.B" = false := by decide +kernel
  obtain ⟨T, hT, a, ha, b, hb, hat, hbt, hne, hbase, hstart, hno⟩ := htypes
  refine ⟨htidy, hdistinct, T, hT, a, ha, b, hb, hat, hbt, hne, hbase, hstart,
    (readText_siblings htidy hdistinct hT ha hb hat hbt hne hbase).2 ⟨hno, .inr ?_⟩⟩
  intro full hfull htaken
  rw [hstart] at hfull
  cases hfull
  rw [hfree] at htaken
  cases htaken

/-- A class with a class `B` and a class `T`, which has classes `A` and `B`. -/
def hiddenSibling : String :=
  "class O \x7b class B \x7b \x7d class T \x7b class A \x7b \x7d class B \x7b \x7d \x7d \x7d"

/-- Inside of `O.T.A` the name `B` means `O.B` and not the sibling. -/
theorem not_found_hidden_sibling :
    (∀ v ∈ Progress.start.visits true hiddenSibling.toList, v.Tidy true) ∧
      ((outline true hiddenSibling).map TypeRecord.fullName).Nodup ∧
      ∃ t ∈ outline true hiddenSibling, ∃ a ∈ outline true hiddenSibling,
        ∃ b ∈ outline true hiddenSibling,
          a.NestedIn t ∧ b.NestedIn t ∧ a ≠ b ∧ b.name = "B" ∧
            (∀ c ∈ outline true hiddenSibling, ¬c.NestedIn a) ∧
            ((empty.readText true hiddenSibling).1.resolve? a "B").map TypeRecord.fullName =
              some "O.B" ∧ b.fullName = "O.T.B" := by
  decide +kernel

end Registry

end JavaOutline
