/-!
# JavaOutline.Text.Ranges

Classes of characters as lists of closed ranges of code points.  The
ranges of a class are disjoint and ascending, so a search may stop at the
first range that starts above the code point; `inRanges_iff` says that
stopping early loses nothing.
-/

namespace JavaOutline.Text

/-- Ranges that do not overlap, each below the next. -/
def Ascending : List (Nat × Nat) → Prop
  | [] => True
  | (first, last) :: rest => first ≤ last ∧ (∀ r ∈ rest, last < r.1) ∧ Ascending rest

/-- Whether a code point lies in one of the ranges. -/
def inRanges : List (Nat × Nat) → Nat → Bool
  | [], _ => false
  | (first, last) :: rest, n =>
    if n < first then false else if n ≤ last then true else inRanges rest n

/-- On ascending ranges the search finds exactly the members. -/
theorem inRanges_iff {ranges : List (Nat × Nat)} (h : Ascending ranges) (n : Nat) :
    inRanges ranges n = true ↔ ∃ r ∈ ranges, r.1 ≤ n ∧ n ≤ r.2 := by
  induction ranges with
  | nil => simp [inRanges]
  | cons r rest ih =>
    obtain ⟨first, last⟩ := r
    obtain ⟨hle, habove, hrest⟩ := h
    rw [inRanges]
    split
    · rename_i hlt
      constructor
      · simp
      · rintro ⟨r, hr, h1, h2⟩
        rcases List.mem_cons.1 hr with rfl | hr
        · exact absurd h1 (by simpa using hlt)
        · have := habove r hr
          omega
    · rename_i hge
      split
      · rename_i hin
        exact ⟨fun _ => ⟨_, List.mem_cons_self, by simpa using hge, hin⟩, fun _ => rfl⟩
      · rename_i hout
        rw [ih hrest]
        constructor
        · rintro ⟨r, hr, hn⟩
          exact ⟨r, List.mem_cons_of_mem _ hr, hn⟩
        · rintro ⟨r, hr, hn⟩
          rcases List.mem_cons.1 hr with rfl | hr
          · exact absurd hn.2 hout
          · exact ⟨r, hr, hn⟩

end JavaOutline.Text
