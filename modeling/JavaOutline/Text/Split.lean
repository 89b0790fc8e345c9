/-!
# JavaOutline.Text.Split

Cutting texts at characters: the pieces between separators, the two
sides of the last separator, the trailing run of a class of characters,
and the number of lines.  Each cut loses nothing but the separator
(`intercalate_pieces`, `eq_of_cutLast`, `dropTrailing_append_takeTrailing`).
-/

namespace JavaOutline.Text

/-! ## Pieces between separators -/

/-- The pieces of a text between the occurrences of a separator; a text
without one is its own only piece. -/
def pieces (separator : Char) : List Char → List (List Char)
  | [] => [[]]
  | c :: rest =>
    if c = separator then [] :: pieces separator rest
    else
      match pieces separator rest with
      | [] => [[c]]
      | piece :: more => (c :: piece) :: more

theorem pieces_ne_nil (separator : Char) (text : List Char) : pieces separator text ≠ [] := by
  cases text with
  | nil => simp [pieces]
  | cons c rest =>
    rw [pieces]
    split
    · simp
    · split <;> simp

/-- Putting the separator back between the pieces gives the text. -/
theorem intercalate_pieces (separator : Char) (text : List Char) :
    List.intercalate [separator] (pieces separator text) = text := by
  induction text with
  | nil => rfl
  | cons c rest ih =>
    rw [pieces]
    cases hp : pieces separator rest with
    | nil => exact absurd hp (pieces_ne_nil separator rest)
    | cons piece more =>
      rw [hp] at ih
      split
      · rename_i hc
        rw [← ih, hc]
        simp [List.intercalate]
      · rw [← ih]
        cases more <;> simp [List.intercalate]

/-- A text that holds no separator is its own only piece. -/
theorem pieces_of_not_mem {separator : Char} {piece : List Char} (h : separator ∉ piece) :
    pieces separator piece = [piece] := by
  induction piece with
  | nil => rfl
  | cons c piece ih =>
    rw [List.mem_cons, not_or] at h
    rw [pieces, if_neg (Ne.symm h.1), ih h.2]

/-- A piece reaches to the first separator. -/
theorem pieces_append {separator : Char} {piece : List Char} (h : separator ∉ piece)
    (rest : List Char) :
    pieces separator (piece ++ separator :: rest) = piece :: pieces separator rest := by
  induction piece with
  | nil => simp [pieces]
  | cons c piece ih =>
    rw [List.mem_cons, not_or] at h
    rw [List.cons_append, pieces, if_neg (Ne.symm h.1), ih h.2]

/-- The last piece of a text that ends in a separator and a piece. -/
theorem pieces_append_last {separator : Char} {piece : List Char} (h : separator ∉ piece)
    (text : List Char) :
    pieces separator (text ++ separator :: piece) = pieces separator text ++ [piece] := by
  induction text with
  | nil => simp [pieces, pieces_of_not_mem h]
  | cons c text ih =>
    obtain ⟨first, others, hpieces⟩ := List.exists_cons_of_ne_nil (pieces_ne_nil separator text)
    rw [List.cons_append, pieces, pieces, ih, hpieces]
    split <;> rfl

/-- Characters other than the separator go to the first piece. -/
theorem pieces_append_of_not_mem {separator : Char} {front text piece : List Char}
    {more : List (List Char)} (h : separator ∉ front)
    (hpieces : pieces separator text = piece :: more) :
    pieces separator (front ++ text) = (front ++ piece) :: more := by
  induction front with
  | nil => exact hpieces
  | cons c front ih =>
    rw [List.mem_cons, not_or] at h
    rw [List.cons_append, pieces, if_neg (Ne.symm h.1), ih h.2, List.cons_append]

/-- A piece of a text is made of characters of the text. -/
theorem mem_of_mem_pieces {separator c : Char} {text piece : List Char}
    (hpiece : piece ∈ pieces separator text) (hc : c ∈ piece) : c ∈ text := by
  induction text generalizing piece with
  | nil =>
    rw [pieces, List.mem_singleton] at hpiece
    rw [← hpiece]
    exact hc
  | cons d text ih =>
    obtain ⟨first, others, hpieces⟩ := List.exists_cons_of_ne_nil (pieces_ne_nil separator text)
    rw [pieces] at hpiece
    split at hpiece
    · rcases List.mem_cons.1 hpiece with rfl | hin
      · cases hc
      · exact List.mem_cons_of_mem d (ih hin hc)
    · rw [hpieces] at hpiece ih
      rcases List.mem_cons.1 hpiece with rfl | hin
      · rcases List.mem_cons.1 hc with rfl | hc
        · exact List.mem_cons_self
        · exact List.mem_cons_of_mem d (ih List.mem_cons_self hc)
      · exact List.mem_cons_of_mem d (ih (List.mem_cons_of_mem first hin) hc)

/-! ## The last separator -/

/-- What stands before and after the last occurrence of a separator. -/
def cutLast (separator : Char) : List Char → Option (List Char × List Char)
  | [] => none
  | c :: rest =>
    match cutLast separator rest with
    | some (before, after) => some (c :: before, after)
    | none => if c = separator then some ([], rest) else none

theorem cutLast_eq_none_iff {separator : Char} {text : List Char} :
    cutLast separator text = none ↔ separator ∉ text := by
  induction text with
  | nil => simp [cutLast]
  | cons c rest ih =>
    rw [cutLast]
    cases h : cutLast separator rest with
    | some cut => simpa [h] using fun _ => (not_congr ih).1 (by simp [h])
    | none =>
      have := ih.1 h
      by_cases hc : c = separator
      · simp [hc]
      · simp [hc, this, Ne.symm hc]

/-- The two sides make up the text, and no separator follows the last. -/
theorem eq_of_cutLast {separator : Char} {text before after : List Char}
    (h : cutLast separator text = some (before, after)) :
    text = before ++ separator :: after ∧ separator ∉ after := by
  induction text generalizing before with
  | nil => simp [cutLast] at h
  | cons c rest ih =>
    rw [cutLast] at h
    cases hr : cutLast separator rest with
    | some cut =>
      obtain ⟨b, a⟩ := cut
      rw [hr] at h
      simp only [Option.some.injEq, Prod.mk.injEq] at h
      obtain ⟨rfl, rfl⟩ := h
      obtain ⟨heq, hnot⟩ := ih hr
      exact ⟨by simp [heq], hnot⟩
    | none =>
      rw [hr] at h
      simp only [Option.ite_none_right_eq_some, Option.some.injEq, Prod.mk.injEq] at h
      obtain ⟨rfl, rfl, rfl⟩ := h
      exact ⟨rfl, cutLast_eq_none_iff.1 hr⟩

/-- A separator after which none follows is the one that is cut at. -/
theorem cutLast_append {separator : Char} {after : List Char} (h : separator ∉ after)
    (before : List Char) :
    cutLast separator (before ++ separator :: after) = some (before, after) := by
  induction before with
  | nil => simp [cutLast, cutLast_eq_none_iff.2 h]
  | cons c before ih => simp [cutLast, ih]

/-! ## The trailing run -/

/-- A text without its longest end made of characters of a class. -/
def dropTrailing (p : Char → Bool) (text : List Char) : List Char :=
  (text.reverse.dropWhile p).reverse

/-- The longest end of a text made of characters of a class. -/
def takeTrailing (p : Char → Bool) (text : List Char) : List Char :=
  (text.reverse.takeWhile p).reverse

theorem dropTrailing_append_takeTrailing (p : Char → Bool) (text : List Char) :
    dropTrailing p text ++ takeTrailing p text = text := by
  rw [dropTrailing, takeTrailing, ← List.reverse_append, List.takeWhile_append_dropWhile,
    List.reverse_reverse]

/-- A text without characters of a class has no such end. -/
theorem dropTrailing_of_forall_not {p : Char → Bool} {text : List Char}
    (h : ∀ c ∈ text, p c = false) : dropTrailing p text = text ∧ takeTrailing p text = [] := by
  rw [dropTrailing, takeTrailing]
  cases htext : text.reverse with
  | nil => simp [List.reverse_eq_nil_iff.1 htext]
  | cons c rest =>
    have hc : p c = false := h c (List.mem_reverse.1 (htext ▸ List.mem_cons_self))
    rw [List.dropWhile_cons_of_neg (by simp [hc]), List.takeWhile_cons_of_neg (by simp [hc]),
      ← htext, List.reverse_reverse]
    exact ⟨rfl, rfl⟩

/-! ## Lines -/

/-- The number of lines of a text.  A line break ends a line, and an
unfinished last line counts if it is not empty. -/
def lineCount : List Char → Nat
  | [] => 0
  | [_] => 1
  | c :: d :: rest => (if c = '\n' then 1 else 0) + lineCount (d :: rest)

end JavaOutline.Text
