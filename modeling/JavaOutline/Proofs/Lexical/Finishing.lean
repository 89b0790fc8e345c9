import JavaOutline.Proofs.Lexical.Local

/-!
# JavaOutline.Proofs.Lexical.Finishing

What runs into the end of a text can be finished behind it.  If nothing of a
text remains, then some more text can be added after which everything that
follows remains (`Finishable`): a line break, `*/`, a quote or closing
brackets.  So whatever a text ends in, it can be left.
-/

namespace JavaOutline

open Text

/-- What leaves nothing of a text leaves all that follows some more text. -/
def Finishable (f : List Char → List Char) : Prop :=
  ∀ t, f t = [] → ∃ more, ∀ y, y ≠ [] → f (t ++ (more ++ y)) = y

/-! ## Blanks and comments -/

theorem finishable_afterLine : Finishable afterLine := by
  intro t h
  induction t with
  | nil => exact ⟨['\n'], fun y _ => rfl⟩
  | cons c t ih =>
      rw [afterLine] at h
      split at h
      · next hc =>
          subst h
          exact ⟨[], fun y _ => by simp [afterLine, hc]⟩
      · next hc =>
          obtain ⟨more, hmore⟩ := ih h
          exact ⟨more, fun y hy => by rw [List.cons_append, afterLine, if_neg hc, hmore y hy]⟩

theorem finishable_afterBlockComment : Finishable afterBlockComment := by
  intro t h
  fun_induction afterBlockComment t with
  | case1 => exact ⟨['*', '/'], fun y _ => rfl⟩
  | case2 rest =>
      subst h
      exact ⟨[], fun y _ => rfl⟩
  | case3 c rest hnot ih =>
      cases rest with
      | nil =>
          refine ⟨['*', '/'], fun y _ => ?_⟩
          simp only [List.cons_append, List.nil_append]
          rw [afterBlockComment]
          · rfl
          · intro tail _ htail
            cases htail
      | cons d rest =>
          obtain ⟨more, hmore⟩ := ih h
          refine ⟨more, fun y hy => ?_⟩
          rw [List.cons_append, afterBlockComment, hmore y hy]
          intro tail hc htail
          cases htail
          exact hnot rest hc rfl

theorem finishable_afterSlash : Finishable afterSlash := by
  intro t h
  fun_cases afterSlash t with
  | case1 rest => exact finishable_afterLine rest h
  | case2 rest => exact finishable_afterBlockComment rest h
  | case3 _ hslash hstar =>
      rw [afterSlash.eq_3 t hslash hstar] at h
      exact ⟨['/', '\n'], fun y _ => by rw [h]; rfl⟩

/-- Gaps that a text ends in can be left. -/
theorem exists_skipGaps_append {t : List Char} (h : skipGaps t = []) :
    ∃ more, ∀ y, y ≠ [] → skipGaps (t ++ (more ++ y)) = skipGaps y := by
  fun_induction skipGaps t with
  | case1 => exact ⟨[], fun y _ => rfl⟩
  | case2 c rest hc ih =>
      obtain ⟨more, hmore⟩ := ih h
      exact ⟨more, fun y hy => by rw [List.cons_append, skipGaps_cons_of_isBlank hc, hmore y hy]⟩
  | case3 rest _ ih =>
      by_cases hslash : afterSlash rest = []
      · obtain ⟨more, hmore⟩ := finishable_afterSlash rest hslash
        exact ⟨more, fun y hy => by rw [List.cons_append, skipGaps_slash, hmore y hy]⟩
      · obtain ⟨more, hmore⟩ := ih h
        refine ⟨more, fun y hy => ?_⟩
        rw [List.cons_append, skipGaps_slash, local_afterSlash.append_of_ne_nil hslash, hmore y hy]
  | case4 => cases h

/-! ## Literals and brackets -/

theorem finishable_afterQuote {quote : Char} (hquote : isQuote quote = true) :
    Finishable (afterQuote quote) := by
  have hescape : quote ≠ '\\' := ne_of_isQuote hquote (by decide)
  -- A quote ends the literal as long as something follows.
  have hend : ∀ y, y ≠ [] → afterQuote quote (quote :: y) = y := by
    intro y hy
    obtain ⟨d, tail, rfl⟩ := List.exists_cons_of_ne_nil hy
    rw [afterQuote, if_pos rfl]
  intro t h
  fun_induction afterQuote quote t with
  | case1 => exact ⟨[quote], fun y hy => hend y hy⟩
  | case2 c =>
      by_cases hc : c = quote
      · exact ⟨[], fun y hy => by simpa [hc] using hend y hy⟩
      by_cases hbackslash : c = '\\'
      · refine ⟨[' ', quote], fun y hy => ?_⟩
        simp only [List.cons_append, List.nil_append]
        rw [afterQuote, if_neg hc, if_pos hbackslash, hend y hy]
      · refine ⟨[quote], fun y hy => ?_⟩
        simp only [List.cons_append, List.nil_append]
        rw [afterQuote, if_neg hc, if_neg hbackslash, hend y hy]
  | case3 => cases h
  | case4 d rest hc ih =>
      obtain ⟨more, hmore⟩ := ih h
      refine ⟨more, fun y hy => ?_⟩
      rw [List.cons_append, List.cons_append, afterQuote, if_neg hc, if_pos rfl, hmore y hy]
  | case5 c d rest hc hbackslash ih =>
      obtain ⟨more, hmore⟩ := ih h
      refine ⟨more, fun y hy => ?_⟩
      rw [List.cons_append, List.cons_append, afterQuote, if_neg hc, if_neg hbackslash,
        ← List.cons_append, hmore y hy]

section

variable {opening closing : Char} (hslash : closing ≠ '/') (hquote : isQuote closing = false)
  (hopening : closing ≠ opening)

include hslash hquote hopening

theorem afterBracket_replicate (depth : Nat) (y : List Char) :
    afterBracket opening closing depth (List.replicate (depth + 1) closing ++ y) = y := by
  induction depth with
  | zero =>
      rw [List.replicate_one, List.singleton_append, afterBracket, if_neg hslash,
        if_neg (by simp [hquote]), if_neg hopening, if_pos rfl]
  | succ depth ih =>
      rw [List.replicate_succ, List.cons_append, afterBracket, if_neg hslash,
        if_neg (by simp [hquote]), if_neg hopening, if_pos rfl, ih]

theorem finishable_afterBracket (depth : Nat) : Finishable (afterBracket opening closing depth) := by
  intro t h
  have hclosers : ∀ (n : Nat) (y : List Char), List.replicate (n + 1) closing ++ y ≠ [] := by simp
  fun_induction afterBracket opening closing depth t with
  | case1 depth =>
      exact ⟨List.replicate (depth + 1) closing,
        fun y _ => afterBracket_replicate hslash hquote hopening depth y⟩
  | case2 depth rest ih =>
      by_cases hrest : afterSlash rest = []
      · obtain ⟨more, hmore⟩ := finishable_afterSlash rest hrest
        refine ⟨more ++ List.replicate (depth + 1) closing, fun y _ => ?_⟩
        rw [List.cons_append, afterBracket_slash, List.append_assoc, hmore _ (hclosers depth y)]
        exact afterBracket_replicate hslash hquote hopening depth y
      · obtain ⟨more, hmore⟩ := ih h
        refine ⟨more, fun y hy => ?_⟩
        rw [List.cons_append, afterBracket_slash, local_afterSlash.append_of_ne_nil hrest,
          hmore y hy]
  | case3 depth c rest _ hc ih =>
      by_cases hrest : afterQuote c rest = []
      · obtain ⟨more, hmore⟩ := finishable_afterQuote hc rest hrest
        refine ⟨more ++ List.replicate (depth + 1) closing, fun y _ => ?_⟩
        rw [List.cons_append, afterBracket_quote _ _ _ hc, List.append_assoc,
          hmore _ (hclosers depth y)]
        exact afterBracket_replicate hslash hquote hopening depth y
      · obtain ⟨more, hmore⟩ := ih h
        refine ⟨more, fun y hy => ?_⟩
        rw [List.cons_append, afterBracket_quote _ _ _ hc,
          (local_afterQuote c).append_of_ne_nil hrest, hmore y hy]
  | case4 depth rest hs hq ih =>
      obtain ⟨more, hmore⟩ := ih h
      refine ⟨more, fun y hy => ?_⟩
      rw [List.cons_append, afterBracket.eq_def]
      simp only [if_neg hs, if_neg hq, if_true]
      exact hmore y hy
  | case5 rest hs hq ho =>
      subst h
      refine ⟨[], fun y _ => ?_⟩
      rw [List.cons_append, afterBracket, if_neg hs, if_neg hq, if_neg ho, if_pos rfl]
      rfl
  | case6 rest outer hs hq ho ih =>
      obtain ⟨more, hmore⟩ := ih h
      refine ⟨more, fun y hy => ?_⟩
      rw [List.cons_append, afterBracket, if_neg hs, if_neg hq, if_neg ho, if_pos rfl, hmore y hy]
  | case7 depth c rest hs hq ho hc ih =>
      obtain ⟨more, hmore⟩ := ih h
      refine ⟨more, fun y hy => ?_⟩
      rw [List.cons_append, afterBracket_cons _ _ _ hs (by simpa using hq) ho hc, hmore y hy]

end

end JavaOutline
