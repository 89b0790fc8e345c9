import JavaOutline.Proofs.Growth
import JavaOutline.Proofs.Scopes

/-!
# JavaOutline.Proofs.Shadowing

What a name means when more types are known.  The scopes seen from a type stay
the first ones when a registry grows (`Registry.Grown.scopeAt`), though there
may be more of them behind, since a path that was a package may become a type.
A name that was found at a scope is therefore found there again, unless a type
registered later is found nearer (`Registry.Grown.foundAt`).

`Registry.Built.resolution_survives` says so of all that can be done to a
registry.
-/

namespace JavaOutline

namespace Registry

namespace Grown

variable {r r' : Registry} {scope s t : TypeRecord} {base : String} {i : Nat}

theorem outer? (h : Grown r r') (ho : r.outer? t = some s) : r'.outer? t = some s := by
  obtain ⟨hne, hmem, hname⟩ := h.before.outer?_eq_some_iff.1 ho
  exact h.now.outer?_eq_some_iff.2 ⟨hne, h.records.subset hmem, hname⟩

/-- The scopes that there were are the first scopes. -/
theorem scopeAt (h : Grown r r') (hs : r.scopeAt scope i = some s) :
    r'.scopeAt scope i = some s := by
  induction i generalizing s with
  | zero => exact hs
  | succ i ih =>
      obtain ⟨inner, hinner, ho⟩ := Option.bind_eq_some_iff.1 hs
      exact Option.bind_eq_some_iff.2 ⟨inner, ih hinner, h.outer? ho⟩

/-- What was found at a scope is found there, or something registered later is
found at a nearer one. -/
theorem foundAt (h : Grown r r') (hfound : r.FoundAt scope base i t) :
    ∃ j ≤ i, ∃ t', r'.FoundAt scope base j t' ∧
      (j = i ∧ t' = t ∨ j < i ∧ t' ∈ r'.toList.drop r.size) := by
  obtain ⟨⟨s, hs, full, hm, ht⟩, hbefore⟩ := hfound
  have ht₁ := h.get?_eq_some ht
  have htaken : r'.contains full = true := by
    obtain ⟨hmem, hname⟩ := h.now.get?_eq_some_iff.1 ht₁
    exact h.now.contains_iff.2 (hname ▸ List.mem_map_of_mem hmem)
  obtain ⟨j, hle, t', hj⟩ := h.now.exists_foundAt (h.scopeAt hs) hm htaken
  obtain ⟨s', hs', full', hm', ht'⟩ := hj.1
  refine ⟨j, hle, t', hj, ?_⟩
  rcases Nat.lt_or_eq_of_le hle with hlt | rfl
  · -- The nearer scope was there before, but what the name means at it was free.
    obtain ⟨s'', hs''⟩ := exists_scopeAt_of_le hs hle
    rw [h.scopeAt hs''] at hs'
    cases hs'
    have hfree := h.before.get?_eq_none_iff.2 (hbefore j hlt _ hs'' full' hm')
    exact .inr ⟨hlt, h.mem_drop hfree ht'⟩
  · rw [h.scopeAt hs] at hs'
    cases hs'
    rw [means_iff.1 hm', ← means_iff.1 hm, ht₁] at ht'
    exact .inl ⟨rfl, (Option.some.inj ht').symm⟩

/-- What meant something means something. -/
theorem exists_resolve? (h : Grown r r') {written : String} (hb : baseName written ≠ "")
    (ht : r.resolve? scope written = some t) : ∃ t', r'.resolve? scope written = some t' := by
  rcases (h.before.resolve?_eq_some_iff hb).1 ht with ⟨i, hfound⟩ | ⟨_, hdot, hfull⟩
  · obtain ⟨j, _, t', hj, _⟩ := h.foundAt hfound
    exact ⟨t', (h.now.resolve?_eq_some_iff hb).2 (.inl ⟨j, hj⟩)⟩
  · -- A full name still counts, if nothing is found at a scope now.
    rcases h.now.foundAt_or_foundNowhere scope (baseName written) with ⟨j, t', hj⟩ | hnowhere
    · exact ⟨t', (h.now.resolve?_eq_some_iff hb).2 (.inl ⟨j, hj⟩)⟩
    · exact ⟨t, (h.now.resolve?_eq_some_iff hb).2 (.inr ⟨hnowhere, hdot, h.get?_eq_some hfull⟩)⟩

end Grown

/-- **What is found stays found.**  Whatever is done to a registry that was
built, a written type that meant a record inside some type still means one
there.  If the record was found at a scope, then the scopes up to this one are
as they were, and the record is found there again, unless one that was
registered since is found at a nearer scope. -/
theorem Built.resolution_survives {r : Registry} (h : r.Built) (updates : List Update)
    {scope t : TypeRecord} {written : String} (ht : r.resolve? scope written = some t) :
    (∃ t', (r.after updates).resolve? scope written = some t') ∧
    ∀ i, r.FoundAt scope (baseName written) i t →
      (∀ k ≤ i, (r.after updates).scopeAt scope k = r.scopeAt scope k) ∧
      ∃ j ≤ i, ∃ t', (r.after updates).FoundAt scope (baseName written) j t' ∧
        (r.after updates).resolve? scope written = some t' ∧
        (j = i ∧ t' = t ∨ j < i ∧ t' ∈ (r.after updates).toList.drop r.size) := by
  have hgrown := h.grown updates
  have hb := baseName_ne_empty_of_resolve? ht
  refine ⟨hgrown.exists_resolve? hb ht, fun i hfound => ⟨fun k hk => ?_, ?_⟩⟩
  · obtain ⟨s, hs, _⟩ := hfound.1
    obtain ⟨s', hs'⟩ := exists_scopeAt_of_le hs hk
    rw [hs', hgrown.scopeAt hs']
  · obtain ⟨j, hle, t', hj, hnew⟩ := hgrown.foundAt hfound
    exact ⟨j, hle, t', hj, (hgrown.now.resolve?_eq_some_iff hb).2 (.inl ⟨j, hj⟩), hnew⟩

/-- A type registered later is found nearer than the one that its name meant
before. -/
theorem resolution_survives_helper :
    besideNested.Built ∧
      besideNested.resolve? (.start "app.Outer.Inner" .classType) "Helper" =
        some (.start "app.Helper" .classType) ∧
      (besideNested.after [.register (.start "app.Outer.Helper" .enumType)]).FoundAt
        (.start "app.Outer.Inner" .classType) "Helper" 0 (.start "app.Outer.Helper" .enumType) := by
  have hmeans : besideNested.resolve? (.start "app.Outer.Inner" .classType) "Helper" =
      some (.start "app.Helper" .classType) := by decide +kernel
  have hmeans' : (besideNested.after [.register (.start "app.Outer.Helper" .enumType)]).resolve?
      (.start "app.Outer.Inner" .classType) "Helper" =
        some (.start "app.Outer.Helper" .enumType) := by decide +kernel
  have hbase : baseName "Helper" = "Helper" := by decide +kernel
  have hfound : besideNested.FoundAt (.start "app.Outer.Inner" .classType) "Helper" 1
      (.start "app.Helper" .classType) := by
    refine ⟨⟨.start "app.Outer" .classType, by decide +kernel, "app.Helper",
      means_iff.2 (by decide +kernel), by decide +kernel⟩, fun j hj s hs full hm => ?_⟩
    rw [Nat.lt_one_iff.1 hj] at hs
    cases hs
    rw [means_iff.1 hm]
    decide +kernel
  obtain ⟨_, hsurvives⟩ := built_besideNested.resolution_survives
    [.register (.start "app.Outer.Helper" .enumType)] hmeans
  rw [hbase] at hsurvives
  obtain ⟨_, j, _, t', hj, ht', hnew⟩ := hsurvives 1 hfound
  rw [hmeans'] at ht'
  cases ht'
  rcases hnew with ⟨_, hsame⟩ | ⟨hlt, _⟩
  · exact absurd hsame (by decide +kernel)
  · rw [Nat.lt_one_iff.1 hlt] at hj
    exact ⟨built_besideNested, hmeans, hj⟩

end Registry

end JavaOutline
