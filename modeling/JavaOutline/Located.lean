import Std.Data.TreeMap

/-!
# JavaOutline.Located

Arrays beside which an index says where the entry of each key is.  An entry
is appended under a key that is free, or changed in its place without its key,
and both keep the index true (`Located.push`, `Located.modify`).  A true index
makes keys unique (`Located.nodup_keys`), and looking up a key in it finds the
entry of the key (`Located.lookup_eq_some_iff`).
-/

namespace JavaOutline

variable {α κ : Type} {key : α → κ} {entries : Array α} {position? : κ → Option Nat}

/-- Whether an index says the truth about an array: each position that it
gives is that of the entry of the key, and each entry is in it. -/
def Located (key : α → κ) (entries : Array α) (position? : κ → Option Nat) : Prop :=
  ∀ k i, position? k = some i ↔ ∃ entry, entries[i]? = some entry ∧ key entry = k

namespace Located

/-! ## Looking up -/

/-- Each position is one of the array. -/
theorem lt_size (h : Located key entries position?) {k : κ} {i : Nat} (hi : position? k = some i) :
    i < entries.size := by
  obtain ⟨entry, hentry, _⟩ := (h k i).1 hi
  exact (Array.getElem?_eq_some_iff.1 hentry).1

/-- Entries of one key are at one position. -/
theorem eq_of_key_eq (h : Located key entries position?) {i j : Nat} {a b : α}
    (hi : entries[i]? = some a) (hj : entries[j]? = some b) (hkey : key a = key b) : i = j := by
  have hposition := (h (key a) i).2 ⟨a, hi, rfl⟩
  rw [(h (key a) j).2 ⟨b, hj, hkey.symm⟩] at hposition
  exact (Option.some.inj hposition).symm

/-- No two entries have one key. -/
theorem nodup_keys (h : Located key entries position?) : (entries.toList.map key).Nodup := by
  rw [List.nodup_iff_pairwise_ne, List.pairwise_iff_getElem]
  intro i j hi hj hlt hkey
  rw [List.length_map] at hi hj
  rw [List.getElem_map, List.getElem_map] at hkey
  have := h.eq_of_key_eq (Array.getElem?_eq_getElem hi) (Array.getElem?_eq_getElem hj) hkey
  omega

/-- A key has a position if an entry has the key. -/
theorem isSome_iff (h : Located key entries position?) {k : κ} :
    (position? k).isSome ↔ k ∈ entries.toList.map key := by
  rw [Option.isSome_iff_exists, List.mem_map]
  constructor
  · rintro ⟨i, hi⟩
    obtain ⟨entry, hentry, hkey⟩ := (h k i).1 hi
    exact ⟨entry, Array.mem_toList_iff.2 (Array.mem_of_getElem? hentry), hkey⟩
  · rintro ⟨entry, hmem, hkey⟩
    obtain ⟨i, hi⟩ := Array.mem_iff_getElem?.1 (Array.mem_toList_iff.1 hmem)
    exact ⟨i, (h k i).2 ⟨entry, hi, hkey⟩⟩

/-- Looking up a key finds the entry of the key. -/
theorem lookup_eq_some_iff (h : Located key entries position?) {k : κ} {entry : α} :
    ((position? k).bind fun i => entries[i]?) = some entry ↔
      entry ∈ entries.toList ∧ key entry = k := by
  rw [Option.bind_eq_some_iff]
  constructor
  · rintro ⟨i, hi, hentry⟩
    obtain ⟨other, hother, hkey⟩ := (h k i).1 hi
    rw [hentry] at hother
    cases hother
    exact ⟨Array.mem_toList_iff.2 (Array.mem_of_getElem? hentry), hkey⟩
  · rintro ⟨hmem, hkey⟩
    obtain ⟨i, hi⟩ := Array.mem_iff_getElem?.1 (Array.mem_toList_iff.1 hmem)
    exact ⟨i, (h k i).2 ⟨entry, hi, hkey⟩, hi⟩

/-! ## Changes -/

/-- An array without entries has an index without positions. -/
theorem empty (h : ∀ k, position? k = none) : Located key #[] position? := by
  intro k i
  simp [h]

/-- Appending an entry under a free key, and putting it into the index. -/
theorem push [DecidableEq κ] (h : Located key entries position?) {entry : α}
    (hfree : position? (key entry) = none) {later? : κ → Option Nat}
    (hlater : ∀ k, later? k = if key entry = k then some entries.size else position? k) :
    Located key (entries.push entry) later? := by
  intro k i
  rw [hlater, Array.getElem?_push]
  by_cases hkey : key entry = k
  · subst hkey
    rw [if_pos rfl]
    constructor
    · intro hi
      cases hi
      exact ⟨entry, if_pos rfl, rfl⟩
    · rintro ⟨other, hother, hname⟩
      split at hother
      · next hi => rw [hi]
      · have := (h _ i).2 ⟨other, hother, hname⟩
        rw [hfree] at this
        cases this
  · rw [if_neg hkey, h k i]
    constructor
    · rintro ⟨other, hother, hname⟩
      have hlt := (Array.getElem?_eq_some_iff.1 hother).1
      exact ⟨other, by rw [if_neg (Nat.ne_of_lt hlt), hother], hname⟩
    · rintro ⟨other, hother, hname⟩
      split at hother
      · cases hother
        exact absurd hname hkey
      · exact ⟨other, hother, hname⟩

/-- Changing an entry in its place, without its key. -/
theorem modify (h : Located key entries position?) {f : α → α} (hkey : ∀ a, key (f a) = key a)
    (position : Nat) : Located key (entries.modify position f) position? := by
  intro k i
  rw [h k i, Array.getElem?_modify]
  split
  · constructor
    · rintro ⟨entry, hentry, hname⟩
      exact ⟨f entry, by rw [hentry]; rfl, (hkey entry).trans hname⟩
    · rintro ⟨entry, hentry, hname⟩
      obtain ⟨old, hold, rfl⟩ := Option.map_eq_some_iff.1 hentry
      exact ⟨old, hold, (hkey old).symm.trans hname⟩
  · rfl

/-- Such a change leaves the keys in their order. -/
theorem map_key_modify {f : α → α} (hkey : ∀ a, key (f a) = key a) (entries : Array α)
    (position : Nat) : (entries.modify position f).toList.map key = entries.toList.map key := by
  refine List.ext_getElem? fun i => ?_
  rw [List.getElem?_map, List.getElem?_map, Array.getElem?_toList, Array.getElem?_toList,
    Array.getElem?_modify]
  split
  · rw [Option.map_map]
    exact congrArg (Option.map · _) (funext hkey)
  · rfl

end Located

end JavaOutline
