/-!
# JavaOutline.Entries

Lists of named values in ascending order of the names, each name once.
The order makes such a list canonical: two that answer every lookup alike
are equal (`eq_of_lookup_eq`).
-/

namespace JavaOutline

/-- Entries in strictly ascending order of their names. -/
def AscendingNames {α : Type} (entries : List (String × α)) : Prop :=
  entries.Pairwise fun a b => a.1 < b.1

namespace Entries

variable {α : Type}

/-- The value of the first entry of a name. -/
def lookup (key : String) : List (String × α) → Option α
  | [] => none
  | (name, value) :: rest => if name = key then some value else lookup key rest

/-- Put an entry into its place in ascending order, replacing the one of
the same name. -/
def put (key : String) (value : α) : List (String × α) → List (String × α)
  | [] => [(key, value)]
  | (name, old) :: rest =>
    if key < name then (key, value) :: (name, old) :: rest
    else if key = name then (key, value) :: rest
    else (name, old) :: put key value rest

theorem mem_put {key : String} {value : α} {entries : List (String × α)} {e : String × α}
    (h : e ∈ put key value entries) : e = (key, value) ∨ e ∈ entries := by
  induction entries with
  | nil => simpa [put] using h
  | cons first rest ih =>
    rw [put] at h
    split at h
    · simpa using h
    · split at h
      · rcases List.mem_cons.1 h with rfl | h
        · exact .inl rfl
        · exact .inr (List.mem_cons_of_mem _ h)
      · rcases List.mem_cons.1 h with rfl | h
        · exact .inr List.mem_cons_self
        · exact (ih h).imp id (List.mem_cons_of_mem _)

theorem ascendingNames_put {entries : List (String × α)} (h : AscendingNames entries)
    (key : String) (value : α) : AscendingNames (put key value entries) := by
  induction entries with
  | nil => exact List.pairwise_singleton ..
  | cons first rest ih =>
    obtain ⟨habove, hrest⟩ := List.pairwise_cons.1 h
    rw [put]
    split
    · rename_i hlt
      refine List.pairwise_cons.2 ⟨fun e he => ?_, h⟩
      rcases List.mem_cons.1 he with rfl | he
      · exact hlt
      · exact String.lt_trans hlt (habove e he)
    · split
      · rename_i heq
        exact List.pairwise_cons.2 ⟨fun e he => heq ▸ habove e he, hrest⟩
      · rename_i hge hne
        refine List.pairwise_cons.2 ⟨fun e he => ?_, ih hrest⟩
        rcases mem_put he with rfl | he
        · exact Std.lt_of_le_of_ne (String.not_lt.1 hge) (Ne.symm hne)
        · exact habove e he

theorem lookup_put (name key : String) (value : α) (entries : List (String × α)) :
    lookup key (put name value entries) =
      if name = key then some value else lookup key entries := by
  induction entries with
  | nil => simp [put, lookup]
  | cons first rest ih =>
    obtain ⟨other, old⟩ := first
    rw [put]
    split
    · rw [lookup]
    · split
      · rename_i heq
        simp only [lookup, heq]
        split <;> rfl
      · rename_i hne
        simp only [lookup, ih]
        split
        · rename_i hkey
          rw [if_neg fun h => hne (h.trans hkey.symm)]
        · rfl

/-- Below the first name of ascending entries nothing is found. -/
theorem lookup_eq_none_of_forall_lt {key : String} {entries : List (String × α)}
    (h : ∀ e ∈ entries, key < e.1) : lookup key entries = none := by
  induction entries with
  | nil => rfl
  | cons first rest ih =>
    rw [lookup, if_neg, ih fun e he => h e (List.mem_cons_of_mem _ he)]
    intro heq
    exact String.lt_irrefl _ (heq ▸ h first List.mem_cons_self)

/-- Entries that begin with a name answer it, entries that begin above it
do not. -/
theorem lookup_cons_ne_of_forall_lt {name : String} {value : α} {rest others : List (String × α)}
    (habove : ∀ e ∈ others, name < e.1) :
    lookup name ((name, value) :: rest) ≠ lookup name others := by
  rw [lookup_eq_none_of_forall_lt habove, lookup, if_pos rfl]
  exact Option.some_ne_none value

/-- Ascending entries are determined by what is found under each name. -/
theorem eq_of_lookup_eq {xs ys : List (String × α)} (hx : AscendingNames xs)
    (hy : AscendingNames ys) (h : ∀ key, lookup key xs = lookup key ys) : xs = ys := by
  induction xs generalizing ys with
  | nil =>
    cases ys with
    | nil => rfl
    | cons y ys =>
      have := h y.1
      simp [lookup] at this
  | cons x xs ih =>
    obtain ⟨name, full⟩ := x
    obtain ⟨hax, hxs⟩ := List.pairwise_cons.1 hx
    cases ys with
    | nil =>
      have := h name
      simp [lookup] at this
    | cons y ys =>
      obtain ⟨other, value⟩ := y
      obtain ⟨hay, hys⟩ := List.pairwise_cons.1 hy
      have hname : name = other := by
        apply String.le_antisymm
        · refine String.not_lt.1 fun hlt => lookup_cons_ne_of_forall_lt ?_ (h other).symm
          intro e he
          rcases List.mem_cons.1 he with rfl | he
          · exact hlt
          · exact String.lt_trans hlt (hax e he)
        · refine String.not_lt.1 fun hlt => lookup_cons_ne_of_forall_lt ?_ (h name)
          intro e he
          rcases List.mem_cons.1 he with rfl | he
          · exact hlt
          · exact String.lt_trans hlt (hay e he)
      subst hname
      have hfull : full = value := by
        have := h name
        simpa [lookup] using this
      subst hfull
      refine congrArg _ (ih hxs hys fun key => ?_)
      by_cases hkey : name = key
      · rw [← hkey, lookup_eq_none_of_forall_lt hax, lookup_eq_none_of_forall_lt hay]
      · have := h key
        simpa [lookup, hkey] using this

/-- Named values in ascending order; of two for one name the later counts. -/
def ofList (values : List (String × α)) : List (String × α) :=
  values.foldl (fun entries e => put e.1 e.2 entries) []

/-! ## Entries of distinct names -/

/-- Ascending names are distinct. -/
theorem nodup_of_ascendingNames {entries : List (String × α)} (h : AscendingNames entries) :
    (entries.map Prod.fst).Nodup := by
  refine List.pairwise_map.2 (List.Pairwise.imp ?_ h)
  intro a b hlt heq
  rw [heq] at hlt
  exact String.lt_irrefl _ hlt

/-- A name that no entry has is not found. -/
theorem lookup_eq_none_of_not_mem {key : String} {entries : List (String × α)}
    (h : key ∉ entries.map Prod.fst) : lookup key entries = none := by
  induction entries with
  | nil => rfl
  | cons first rest ih =>
    rw [List.map_cons, List.mem_cons, not_or] at h
    rw [lookup, if_neg (Ne.symm h.1), ih h.2]

/-- Where names are distinct, every entry is found. -/
theorem lookup_of_mem {key : String} {value : α} {entries : List (String × α)}
    (h : (entries.map Prod.fst).Nodup) (hmem : (key, value) ∈ entries) :
    lookup key entries = some value := by
  induction entries with
  | nil => cases hmem
  | cons first rest ih =>
    obtain ⟨hnot, hrest⟩ := List.nodup_cons.1 h
    rcases List.mem_cons.1 hmem with rfl | hmem
    · exact if_pos rfl
    · have hne : first.1 ≠ key := fun heq => hnot (heq ▸ List.mem_map_of_mem hmem)
      rw [lookup, if_neg hne, ih hrest hmem]

/-- What is found is an entry. -/
theorem mem_of_lookup {key : String} {value : α} {entries : List (String × α)}
    (h : lookup key entries = some value) : (key, value) ∈ entries := by
  induction entries with
  | nil => cases h
  | cons first rest ih =>
    rw [lookup] at h
    split at h
    · next hname =>
        cases h
        rw [← hname]
        exact List.mem_cons_self
    · exact List.mem_cons_of_mem _ (ih h)

/-- Where names are distinct, the entries are what is found. -/
theorem lookup_eq_some_iff {key : String} {value : α} {entries : List (String × α)}
    (h : (entries.map Prod.fst).Nodup) :
    lookup key entries = some value ↔ (key, value) ∈ entries :=
  ⟨mem_of_lookup, lookup_of_mem h⟩

/-- Entries of distinct names that are put in one after the other are found, and
otherwise what was there. -/
theorem lookup_foldl_put (values : List (String × α)) (h : (values.map Prod.fst).Nodup)
    (entries : List (String × α)) (key : String) :
    lookup key (values.foldl (fun entries e => put e.1 e.2 entries) entries) =
      (lookup key values).or (lookup key entries) := by
  induction values generalizing entries with
  | nil => rfl
  | cons first rest ih =>
    obtain ⟨name, value⟩ := first
    obtain ⟨hnot, hrest⟩ := List.nodup_cons.1 h
    rw [List.foldl_cons, ih hrest, lookup_put, lookup]
    split
    · next heq => rw [lookup_eq_none_of_not_mem (heq ▸ hnot)]; rfl
    · rfl

/-- Entries of distinct names are found after they are put in order. -/
theorem lookup_ofList {values : List (String × α)} (h : (values.map Prod.fst).Nodup)
    (key : String) : lookup key (ofList values) = lookup key values := by
  rw [ofList, lookup_foldl_put values h, lookup, Option.or_none]

/-- Putting entries in one after the other keeps the order. -/
theorem ascendingNames_ofList (values : List (String × α)) : AscendingNames (ofList values) := by
  refine List.foldlRecOn values _ List.Pairwise.nil fun entries h e _ => ?_
  exact ascendingNames_put h e.1 e.2

/-- Entries of distinct names are put in order without loss. -/
theorem mem_ofList {values : List (String × α)} (h : (values.map Prod.fst).Nodup)
    {e : String × α} : e ∈ ofList values ↔ e ∈ values := by
  have hordered := nodup_of_ascendingNames (ascendingNames_ofList values)
  rw [← lookup_eq_some_iff hordered, lookup_ofList h, lookup_eq_some_iff h]

end Entries

/-- The elements of a list are read one by one. -/
theorem mapM_map_eq_some {α β γ : Type} {write : α → β} {read? : β → Option γ} {f : α → γ}
    {list : List α} (h : ∀ a ∈ list, read? (write a) = some (f a)) :
    (list.map write).mapM read? = some (list.map f) := by
  induction list with
  | nil => rfl
  | cons a rest ih =>
    obtain ⟨ha, hrest⟩ := List.forall_mem_cons.1 h
    rw [List.map_cons, List.mapM_cons, ha, ih hrest]
    rfl

end JavaOutline
