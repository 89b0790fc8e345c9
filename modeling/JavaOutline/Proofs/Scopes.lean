import JavaOutline.Proofs.Sessions
import JavaOutline.Resolution

/-!
# JavaOutline.Proofs.Scopes

Resolving a name goes outward from a type, from one scope to the next, and it
comes to an end.

* `Registry.scopeAt` is the `i`-th scope seen from a type.  The scopes have
  shorter and shorter paths, since a type around another is registered under
  the path of the other (`Registry.Valid.length_packagePath_lt`), so there is
  an induction on going outward (`Registry.Valid.outward_induction`).
* `TypeRecord.Means` says which full name a base name has at a scope.
* `Registry.Searches` is the search itself, which looks in one scope and then
  goes on from the next, with nothing that bounds it.  In a valid registry it
  has exactly one result (`Registry.Valid.searches_iff`).
* `Registry.FoundAt` says which scope a name is found at
  (`Registry.Valid.resolve?_eq_some_iff`).

`Registry.Built.resolves_outward` puts this together.
-/

namespace JavaOutline

/-- The full names that a base name means at a scope: the imported one, or
without an import the one in the path of the scope. -/
inductive TypeRecord.Means (s : TypeRecord) (base : String) : String → Prop
  | imported {full : String} (h : s.imports.get? base = some full) : s.Means base full
  | inPath (h : s.imports.get? base = none) : s.Means base (qualify s.packagePath base)

/-- The first result in a list has a position, before which there is none. -/
theorem findSome?_eq_some_iff_getElem? {α β : Type} {l : List α} {f : α → Option β} {b : β} :
    l.findSome? f = some b ↔
      ∃ i : Nat, (∃ a, l[i]? = some a ∧ f a = some b) ∧
        ∀ j < i, ∀ a, l[j]? = some a → f a = none := by
  rw [List.findSome?_eq_some_iff]
  constructor
  · rintro ⟨before, a, behind, rfl, ha, hnone⟩
    refine ⟨before.length, ⟨a, by simp, ha⟩, fun j hj x hx => hnone x ?_⟩
    rw [List.getElem?_append_left hj] at hx
    exact List.mem_of_getElem? hx
  · rintro ⟨i, ⟨a, hi, ha⟩, hnone⟩
    obtain ⟨hlt, rfl⟩ := List.getElem?_eq_some_iff.1 hi
    refine ⟨l.take i, l[i], l.drop (i + 1), ?_, ha, fun x hx => ?_⟩
    · rw [← List.drop_eq_getElem_cons hlt, List.take_append_drop]
    · obtain ⟨j, hj, rfl⟩ := List.mem_take_iff_getElem.1 hx
      have hj' := Nat.lt_min.1 hj
      exact hnone j hj'.1 _ (List.getElem?_eq_getElem hj'.2)

namespace Registry

theorem means_iff {s : TypeRecord} {base full : String} :
    s.Means base full ↔ full = candidate s base := by
  rw [candidate]
  constructor
  · intro h
    cases h with
    | imported h => rw [h]; rfl
    | inPath h => rw [h]; rfl
  · rintro rfl
    cases h : s.imports.get? base with
    | some full => exact .imported h
    | none => exact .inPath h

/-! ## Scopes -/

/-- The `i`-th scope seen from a type: the type itself, then the type around
it, then the type around that. -/
def scopeAt (r : Registry) (scope : TypeRecord) : Nat → Option TypeRecord
  | 0 => some scope
  | i + 1 => (r.scopeAt scope i).bind r.outer?

/-- The scopes after the first are those seen from the type around. -/
theorem scopeAt_succ (r : Registry) (scope : TypeRecord) (i : Nat) :
    r.scopeAt scope (i + 1) = (r.outer? scope).bind fun outer => r.scopeAt outer i := by
  induction i with
  | zero => simp [scopeAt]
  | succ i ih => rw [scopeAt, ih, Option.bind_assoc]; rfl

/-- Before a scope there are others. -/
theorem exists_scopeAt_of_le {r : Registry} {scope s : TypeRecord} {i j : Nat}
    (h : r.scopeAt scope i = some s) (hle : j ≤ i) : ∃ s', r.scopeAt scope j = some s' := by
  induction i generalizing s with
  | zero => exact ⟨s, Nat.le_zero.1 hle ▸ h⟩
  | succ i ih =>
      rcases Nat.lt_or_eq_of_le hle with hlt | rfl
      · obtain ⟨inner, hinner, _⟩ := Option.bind_eq_some_iff.1 h
        exact ih hinner (Nat.lt_succ_iff.1 hlt)
      · exact ⟨s, h⟩

/-- What holds of a type if it holds of the type around it holds of all
types. -/
theorem Valid.outward_induction {r : Registry} (h : r.Valid) {motive : TypeRecord → Prop}
    (top : ∀ t, r.outer? t = none → motive t)
    (nested : ∀ t outer, r.outer? t = some outer → motive outer → motive t) (t : TypeRecord) :
    motive t := by
  induction hlength : t.packagePath.length using Nat.strongRecOn generalizing t with
  | ind length ih =>
      cases ho : r.outer? t with
      | none => exact top t ho
      | some outer =>
          have hlt := h.length_packagePath_lt ho
          exact nested t outer ho (ih _ (hlength ▸ hlt) outer rfl)

/-- The scopes seen from a type are the types that enclose it. -/
theorem Valid.getElem?_enclosing {r : Registry} (h : r.Valid) (scope : TypeRecord) (i : Nat) :
    (r.enclosing scope)[i]? = r.scopeAt scope i := by
  induction scope using h.outward_induction generalizing i with
  | top t ho =>
      rw [enclosing_of_outer?_eq_none ho]
      cases i with
      | zero => rfl
      | succ i => rw [scopeAt_succ, ho]; rfl
  | nested t outer ho ih =>
      rw [h.enclosing_eq ho]
      cases i with
      | zero => rfl
      | succ i => rw [scopeAt_succ, ho, List.getElem?_cons_succ, ih]; rfl

/-! ## The search -/

/-- What a search for a base name finds that looks in a scope and goes on
outward from there. -/
inductive Searches (r : Registry) (base : String) : TypeRecord → Option TypeRecord → Prop
  | found {scope t : TypeRecord} {full : String} (hm : scope.Means base full)
      (h : r.get? full = some t) : Searches r base scope (some t)
  | outward {scope outer : TypeRecord} {full : String} {result : Option TypeRecord}
      (hm : scope.Means base full) (h : r.get? full = none) (ho : r.outer? scope = some outer)
      (hs : Searches r base outer result) : Searches r base scope result
  | nowhere {scope : TypeRecord} {full : String} (hm : scope.Means base full)
      (h : r.get? full = none) (ho : r.outer? scope = none) : Searches r base scope none

/-- One step of a search. -/
theorem searches_iff_step {r : Registry} {base : String} {scope : TypeRecord}
    {result : Option TypeRecord} :
    r.Searches base scope result ↔
      match r.get? (candidate scope base), r.outer? scope with
      | some t, _ => result = some t
      | none, some outer => r.Searches base outer result
      | none, none => result = none := by
  constructor
  · intro hs
    cases hs with
    | found hm h => rw [← means_iff.1 hm, h]
    | outward hm h ho hs => rw [← means_iff.1 hm, h, ho]; exact hs
    | nowhere hm h ho => rw [← means_iff.1 hm, h, ho]
  · have hm : scope.Means base (candidate scope base) := means_iff.2 rfl
    split
    · next h => rintro rfl; exact .found hm h
    · next h ho => exact .outward hm h ho
    · next h ho => rintro rfl; exact .nowhere hm h ho

/-- A search ends, with what the first scope gives at which anything is
found. -/
theorem Valid.searches_iff {r : Registry} (h : r.Valid) (base : String) (scope : TypeRecord)
    (result : Option TypeRecord) :
    r.Searches base scope result ↔
      result = (r.enclosing scope).findSome? fun t => r.get? (candidate t base) := by
  induction scope using h.outward_induction with
  | top t ho =>
      rw [searches_iff_step, enclosing_of_outer?_eq_none ho, ho, List.findSome?_singleton]
      cases r.get? (candidate t base) <;> rfl
  | nested t outer ho ih =>
      rw [searches_iff_step, h.enclosing_eq ho, ho, List.findSome?_cons]
      cases r.get? (candidate t base) with
      | some found => rfl
      | none => exact ih

/-! ## Where a name is found -/

/-- A base name is found at the `i`-th scope: what it means there is a
registered name, and what it means at the scopes before is not. -/
def FoundAt (r : Registry) (scope : TypeRecord) (base : String) (i : Nat) (t : TypeRecord) :
    Prop :=
  (∃ s, r.scopeAt scope i = some s ∧ ∃ full, s.Means base full ∧ r.get? full = some t) ∧
    ∀ j < i, ∀ s, r.scopeAt scope j = some s →
      ∀ full, s.Means base full → r.contains full = false

/-- A base name is found at none of the scopes. -/
def FoundNowhere (r : Registry) (scope : TypeRecord) (base : String) : Prop :=
  ∀ i s, r.scopeAt scope i = some s → ∀ full, s.Means base full → r.contains full = false

theorem Valid.findSome?_enclosing_eq_some_iff {r : Registry} (h : r.Valid) {base : String}
    {scope t : TypeRecord} :
    ((r.enclosing scope).findSome? fun s => r.get? (candidate s base)) = some t ↔
      ∃ i, r.FoundAt scope base i t := by
  rw [findSome?_eq_some_iff_getElem?]
  simp only [h.getElem?_enclosing, h.get?_eq_none_iff, FoundAt, means_iff, forall_eq,
    exists_eq_left]

theorem Valid.findSome?_enclosing_eq_none_iff {r : Registry} (h : r.Valid) {base : String}
    {scope : TypeRecord} :
    ((r.enclosing scope).findSome? fun s => r.get? (candidate s base)) = none ↔
      r.FoundNowhere scope base := by
  rw [List.findSome?_eq_none_iff]
  simp only [h.get?_eq_none_iff, List.mem_iff_getElem?, h.getElem?_enclosing, FoundNowhere,
    means_iff, forall_eq]
  exact ⟨fun hnone i s hs => hnone s ⟨i, hs⟩, fun hnone s ⟨i, hs⟩ => hnone i s hs⟩

/-- A name is found at a scope or nowhere. -/
theorem Valid.foundAt_or_foundNowhere {r : Registry} (h : r.Valid) (scope : TypeRecord)
    (base : String) : (∃ i t, r.FoundAt scope base i t) ∨ r.FoundNowhere scope base := by
  cases hfound : (r.enclosing scope).findSome? fun s => r.get? (candidate s base) with
  | none => exact .inr (h.findSome?_enclosing_eq_none_iff.1 hfound)
  | some t =>
      obtain ⟨i, hi⟩ := h.findSome?_enclosing_eq_some_iff.1 hfound
      exact .inl ⟨i, t, hi⟩

/-- If what a name means at a scope is registered, the name is found there or
before. -/
theorem Valid.exists_foundAt {r : Registry} (h : r.Valid) {base full : String}
    {scope s : TypeRecord} {i : Nat} (hs : r.scopeAt scope i = some s) (hm : s.Means base full)
    (htaken : r.contains full = true) : ∃ j ≤ i, ∃ t, r.FoundAt scope base j t := by
  rcases h.foundAt_or_foundNowhere scope base with ⟨j, t, hj⟩ | hnowhere
  · refine ⟨j, Nat.le_of_not_lt fun hlt => ?_, t, hj⟩
    rw [hj.2 i hlt s hs full hm] at htaken
    cases htaken
  · rw [hnowhere i s hs full hm] at htaken
    cases htaken

theorem resolve?_of_baseName_eq_empty (r : Registry) (scope : TypeRecord) {written : String}
    (hb : baseName written = "") : r.resolve? scope written = none := by
  rw [resolve?]
  exact if_pos hb

theorem resolve?_of_baseName_ne_empty (r : Registry) (scope : TypeRecord) {written : String}
    (hb : baseName written ≠ "") :
    r.resolve? scope written =
      ((r.enclosing scope).findSome? fun t => r.get? (candidate t (baseName written))).or
        (if (baseName written).toList.contains '.' then r.get? (baseName written) else none) := by
  rw [resolve?]
  exact if_neg hb

/-- Only a written type with a base name means anything. -/
theorem baseName_ne_empty_of_resolve? {r : Registry} {scope t : TypeRecord} {written : String}
    (ht : r.resolve? scope written = some t) : baseName written ≠ "" := by
  intro hb
  rw [resolve?_of_baseName_eq_empty r scope hb] at ht
  cases ht

/-- What a written type means: the record found at one of the scopes, or else
the record that a name with a dot is the full name of. -/
theorem Valid.resolve?_eq_some_iff {r : Registry} (h : r.Valid) {scope t : TypeRecord}
    {written : String} (hb : baseName written ≠ "") :
    r.resolve? scope written = some t ↔
      (∃ i, r.FoundAt scope (baseName written) i t) ∨
        r.FoundNowhere scope (baseName written) ∧
          '.' ∈ (baseName written).toList ∧ r.get? (baseName written) = some t := by
  rw [resolve?_of_baseName_ne_empty r scope hb, Option.or_eq_some_iff,
    h.findSome?_enclosing_eq_some_iff, h.findSome?_enclosing_eq_none_iff,
    Option.ite_none_right_eq_some, List.contains_iff_mem]

/-- A written type means a registered record. -/
theorem Valid.mem_of_resolve? {r : Registry} (h : r.Valid) {scope t : TypeRecord}
    {written : String} (ht : r.resolve? scope written = some t) : t ∈ r.toList := by
  have hb := baseName_ne_empty_of_resolve? ht
  rcases (h.resolve?_eq_some_iff hb).1 ht with
    ⟨_, ⟨_, _, _, _, hget⟩, _⟩ | ⟨_, _, hget⟩
  · exact (h.get?_eq_some_iff.1 hget).1
  · exact (h.get?_eq_some_iff.1 hget).1

/-- **Resolution ends, and goes outward.**  Seen from any type in a registry
that was built there are finitely many scopes, of shorter and shorter paths.
The search through them ends with one result; a written type with a base name
means that result or else, if the base name has a dot, the record of that full
name.  So it means the record of the first registered name among what the base
name means at the scopes, and only if there is none the record of the base
name itself.  Without a base name it means nothing. -/
theorem Built.resolves_outward {r : Registry} (h : r.Built) (scope : TypeRecord)
    (written : String) :
    (∃ n, r.scopeAt scope n = none) ∧
    (∀ i inner outer, r.scopeAt scope i = some inner →
      (r.scopeAt scope (i + 1) = some outer ↔
        inner.packagePath ≠ "" ∧ outer ∈ r.toList ∧ outer.fullName = inner.packagePath) ∧
      (r.scopeAt scope (i + 1) = some outer →
        outer.packagePath.length < inner.packagePath.length)) ∧
    (baseName written = "" → r.resolve? scope written = none) ∧
    (baseName written ≠ "" →
      (∃ found, (∀ result, r.Searches (baseName written) scope result ↔ result = found) ∧
        r.resolve? scope written = found.or
          (if (baseName written).toList.contains '.' then r.get? (baseName written) else none)) ∧
      ∀ t, r.resolve? scope written = some t ↔
        (∃ i, r.FoundAt scope (baseName written) i t) ∨
          r.FoundNowhere scope (baseName written) ∧
            '.' ∈ (baseName written).toList ∧ r.get? (baseName written) = some t) := by
  refine ⟨⟨(r.enclosing scope).length, ?_⟩, fun i inner outer hinner => ?_,
    r.resolve?_of_baseName_eq_empty scope, fun hb => ⟨?_, fun t => h.valid.resolve?_eq_some_iff hb⟩⟩
  · rw [← h.valid.getElem?_enclosing]
    exact List.getElem?_eq_none (Nat.le_refl _)
  · have hnext : r.scopeAt scope (i + 1) = r.outer? inner := by rw [scopeAt, hinner]; rfl
    rw [hnext]
    exact ⟨h.valid.outer?_eq_some_iff, h.valid.length_packagePath_lt⟩
  · exact ⟨_, h.valid.searches_iff (baseName written) scope,
      r.resolve?_of_baseName_ne_empty scope hb⟩

/-- A class, a class nested in it and a class beside it. -/
def besideNested : Registry :=
  ((empty.append (.start "app.Outer.Inner" .classType)).append (.start "app.Outer" .classType)).append
    (.start "app.Helper" .classType)

theorem built_besideNested : besideNested.Built :=
  ((Built.empty.append (by decide +kernel)).append (by decide +kernel)).append (by decide +kernel)

/-- A type that is not registered sees beyond the types that it would be
nested in. -/
theorem resolves_outward_unregistered :
    besideNested.Built ∧ baseName "Helper[]" = "Helper" ∧
      besideNested.resolve? (.start "app.Outer.Inner.Deep" .classType) "Helper[]" =
        some (.start "app.Helper" .classType) ∧
      ∃ i, besideNested.FoundAt (.start "app.Outer.Inner.Deep" .classType) "Helper" i
        (.start "app.Helper" .classType) := by
  have hbase : baseName "Helper[]" = "Helper" := by decide +kernel
  have hmeans : besideNested.resolve? (.start "app.Outer.Inner.Deep" .classType) "Helper[]" =
      some (.start "app.Helper" .classType) := by decide +kernel
  obtain ⟨_, _, _, hresolves⟩ := built_besideNested.resolves_outward
    (.start "app.Outer.Inner.Deep" .classType) "Helper[]"
  rw [hbase] at hresolves
  have hfound := ((hresolves (by decide)).2 _).1 hmeans
  exact ⟨built_besideNested, hbase, hmeans, hfound.resolve_right fun h => by
    have hdot : '.' ∉ "Helper".toList := by decide
    exact hdot h.2.1⟩

end Registry

end JavaOutline
