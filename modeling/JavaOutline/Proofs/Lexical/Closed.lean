import JavaOutline.Proofs.Lexical.Parts

/-!
# JavaOutline.Proofs.Lexical.Closed

Texts whose brackets of some kinds are closed in order.  Brackets in literals
and comments do not count, so a reader that passes over brackets of one of
these kinds passes over such a text (`Closed.afterBracket_append`).
-/

namespace JavaOutline

open Text

/-- A text whose brackets of the kinds `kinds` are closed in order. -/
inductive Closed (kinds : List (Char × Char)) : List Char → Prop
  | nil : Closed kinds []
  | code {c : Char} {rest : List Char} (hslash : c ≠ '/') (hquote : isQuote c = false)
      (hkinds : ∀ k ∈ kinds, c ≠ k.1 ∧ c ≠ k.2) (h : Closed kinds rest) : Closed kinds (c :: rest)
  | slash {rest : List Char} (hline : rest.head? ≠ some '/') (hblock : rest.head? ≠ some '*')
      (h : Closed kinds rest) : Closed kinds ('/' :: rest)
  | literal {quote : Char} {content rest : List Char} (hquote : isQuote quote = true)
      (hcontent : Escaped quote content) (h : Closed kinds rest) :
      Closed kinds (quote :: (content ++ quote :: rest))
  | lineComment {content rest : List Char} (hcontent : '\n' ∉ content) (h : Closed kinds rest) :
      Closed kinds ('/' :: '/' :: (content ++ '\n' :: rest))
  | blockComment {content rest : List Char} (hcontent : WithoutClosing content)
      (h : Closed kinds rest) : Closed kinds ('/' :: '*' :: (content ++ '*' :: '/' :: rest))
  | block {k : Char × Char} {inner rest : List Char} (hk : k ∈ kinds) (hinner : Closed kinds inner)
      (h : Closed kinds rest) : Closed kinds (k.1 :: (inner ++ k.2 :: rest))

/-- The kinds of brackets. -/
def bracketKinds : List (Char × Char) := [('(', ')'), ('[', ']'), ('\x7b', '\x7d')]

/-- A bracket says nothing but itself. -/
theorem bracketKinds_plain : ∀ k ∈ bracketKinds, k.1 ≠ k.2 ∧ ∀ c ∈ [k.1, k.2],
    c ≠ '/' ∧ c ≠ '*' ∧ isQuote c = false := by decide

/-- Two kinds of brackets have no character in common. -/
theorem bracketKinds_apart : ∀ k ∈ bracketKinds, ∀ l ∈ bracketKinds, k ≠ l →
    ∀ c ∈ [l.1, l.2], c ≠ k.1 ∧ c ≠ k.2 := by decide

section

variable {k : Char × Char} (hk : k ∈ bracketKinds) (depth : Nat) (text : List Char)
include hk

theorem afterBracket_opening : afterBracket k.1 k.2 depth (k.1 :: text) =
    afterBracket k.1 k.2 (depth + 1) text := by
  obtain ⟨_, hplain⟩ := bracketKinds_plain k hk
  obtain ⟨hslash, _, hquote⟩ := hplain k.1 (by simp)
  rw [afterBracket.eq_def]
  dsimp only
  rw [if_neg hslash, if_neg (by simp [hquote]), if_pos rfl]

theorem afterBracket_closing : afterBracket k.1 k.2 (depth + 1) (k.2 :: text) =
    afterBracket k.1 k.2 depth text := by
  obtain ⟨hne, hplain⟩ := bracketKinds_plain k hk
  obtain ⟨hslash, _, hquote⟩ := hplain k.2 (by simp)
  rw [afterBracket.eq_def]
  dsimp only
  rw [if_neg hslash, if_neg (by simp [hquote]), if_neg (Ne.symm hne), if_pos rfl]

theorem afterBracket_zero_closing : afterBracket k.1 k.2 0 (k.2 :: text) = text := by
  obtain ⟨hne, hplain⟩ := bracketKinds_plain k hk
  obtain ⟨hslash, _, hquote⟩ := hplain k.2 (by simp)
  rw [afterBracket.eq_def]
  dsimp only
  rw [if_neg hslash, if_neg (by simp [hquote]), if_neg (Ne.symm hne), if_pos rfl]

end

namespace Closed

variable {kinds : List (Char × Char)} {k : Char × Char}

/-- Characters without a meaning of their own change nothing. -/
theorem code_append {run rest : List Char} (hrun : ∀ c ∈ run, c ≠ '/' ∧ isQuote c = false ∧
    ∀ k ∈ kinds, c ≠ k.1 ∧ c ≠ k.2) (h : Closed kinds rest) : Closed kinds (run ++ rest) := by
  induction run with
  | nil => exact h
  | cons c run ih =>
      obtain ⟨hslash, hquote, hkinds⟩ := hrun c List.mem_cons_self
      exact .code hslash hquote hkinds (ih fun d hd => hrun d (List.mem_cons_of_mem c hd))

/-- Closed brackets are passed over up to the text after them, unless it makes
a slash the beginning of a comment. -/
theorem afterBracket_append_of_head (hk : k ∈ kinds) (hkinds : kinds ⊆ bracketKinds)
    {text : List Char} (h : Closed kinds text) (depth : Nat) {tail : List Char}
    (hline : tail.head? ≠ some '/') (hblock : tail.head? ≠ some '*') :
    afterBracket k.1 k.2 depth (text ++ tail) = afterBracket k.1 k.2 depth tail := by
  induction h generalizing depth tail with
  | nil => rfl
  | code hslash hquote hother _ ih =>
      obtain ⟨hopening, hclosing⟩ := hother k hk
      rw [List.cons_append, afterBracket_cons _ _ _ hslash hquote hopening hclosing]
      exact ih depth hline hblock
  | @slash text hcomment hcomment' _ ih =>
      have hself : afterSlash (text ++ tail) = text ++ tail := by
        cases text with
        | nil => exact afterSlash_eq_self hline hblock
        | cons d text => exact afterSlash_eq_self hcomment hcomment'
      rw [List.cons_append, afterBracket_slash, hself]
      exact ih depth hline hblock
  | literal hquote hcontent _ ih =>
      rw [List.cons_append, List.append_assoc, List.cons_append, afterBracket_quote _ _ _ hquote,
        afterQuote_append hquote hcontent]
      exact ih depth hline hblock
  | lineComment hcontent _ ih =>
      rw [List.cons_append, List.cons_append, List.append_assoc, List.cons_append,
        afterBracket_slash, afterSlash_lineComment hcontent]
      exact ih depth hline hblock
  | blockComment hcontent _ ih =>
      rw [List.cons_append, List.cons_append, List.append_assoc, List.cons_append,
        List.cons_append, afterBracket_slash, afterSlash_blockComment hcontent]
      exact ih depth hline hblock
  | @block l inner text hl _ _ ihinner ih =>
      have hplain := (bracketKinds_plain l (hkinds hl)).2
      obtain ⟨hslash, _, hquote⟩ := hplain l.1 (by simp)
      obtain ⟨hslash', hstar', hquote'⟩ := hplain l.2 (by simp)
      have hinside (depth : Nat) : afterBracket k.1 k.2 depth (inner ++ l.2 :: (text ++ tail)) =
          afterBracket k.1 k.2 depth (l.2 :: (text ++ tail)) :=
        ihinner depth (by simpa using hslash') (by simpa using hstar')
      rw [List.cons_append, List.append_assoc, List.cons_append]
      by_cases hsame : k = l
      · subst hsame
        rw [afterBracket_opening (hkinds hk), hinside, afterBracket_closing (hkinds hk)]
        exact ih depth hline hblock
      · have hapart := bracketKinds_apart k (hkinds hk) l (hkinds hl) hsame
        obtain ⟨hopening, hclosing⟩ := hapart l.1 (by simp)
        obtain ⟨hopening', hclosing'⟩ := hapart l.2 (by simp)
        rw [afterBracket_cons _ _ _ hslash hquote hopening hclosing, hinside,
          afterBracket_cons _ _ _ hslash' hquote' hopening' hclosing']
        exact ih depth hline hblock

/-- Closed brackets are passed over up to the character after them, unless
it makes a slash the beginning of a comment. -/
theorem afterBracket_append (hk : k ∈ kinds) (hkinds : kinds ⊆ bracketKinds) {text : List Char}
    (h : Closed kinds text) (depth : Nat) {c : Char} (hline : c ≠ '/') (hblock : c ≠ '*')
    (rest : List Char) :
    afterBracket k.1 k.2 depth (text ++ c :: rest) = afterBracket k.1 k.2 depth (c :: rest) :=
  h.afterBracket_append_of_head hk hkinds depth (by simpa using hline) (by simpa using hblock)

/-- At the end of the text no bracket is closed any more. -/
theorem afterBracket_eq_nil (hk : k ∈ kinds) (hkinds : kinds ⊆ bracketKinds) {text : List Char}
    (h : Closed kinds text) (depth : Nat) : afterBracket k.1 k.2 depth text = [] := by
  have hnone : ∀ c : Char, ([] : List Char).head? ≠ some c := by simp
  have hend := h.afterBracket_append_of_head hk hkinds depth (hnone '/') (hnone '*')
  rwa [List.append_nil, afterBracket_nil] at hend

/-- The bracket that closes a part with closed brackets is the next one. -/
theorem afterBracket_matching (hk : k ∈ bracketKinds) {inner : List Char} (h : Closed [k] inner)
    (rest : List Char) : afterBracket k.1 k.2 0 (inner ++ k.2 :: rest) = rest := by
  obtain ⟨hslash, hstar, -⟩ := (bracketKinds_plain k hk).2 k.2 (by simp)
  have hpassed := h.afterBracket_append List.mem_cons_self (by simpa using hk) 0 hslash hstar rest
  exact hpassed.trans (afterBracket_zero_closing hk rest)

end Closed

/-! ## What was passed over -/

theorem exists_of_afterLine_ne_nil {text : List Char} (h : afterLine text ≠ []) :
    ∃ content, '\n' ∉ content ∧ text = content ++ '\n' :: afterLine text := by
  induction text with
  | nil => exact absurd rfl h
  | cons c text ih =>
      rw [afterLine] at h ⊢
      split at h
      · next hc => exact ⟨[], List.not_mem_nil, by rw [if_pos hc, hc]; rfl⟩
      · next hc =>
          obtain ⟨content, hcontent, heq⟩ := ih h
          refine ⟨c :: content, by simp [Ne.symm hc, hcontent], ?_⟩
          rw [if_neg hc, List.cons_append, ← heq]

theorem exists_of_afterBlockComment_ne_nil {text : List Char} (h : afterBlockComment text ≠ []) :
    ∃ content, WithoutClosing content ∧
      text = content ++ '*' :: '/' :: afterBlockComment text := by
  fun_induction afterBlockComment text with
  | case1 => exact absurd rfl h
  | case2 rest => exact ⟨[], by decide, rfl⟩
  | case3 c rest hnot ih =>
      obtain ⟨content, hcontent, heq⟩ := ih h
      refine ⟨c :: content, fun hin => ?_, by rw [List.cons_append, ← heq]⟩
      rcases List.infix_cons_iff.1 hin with hprefix | hin
      · obtain ⟨more, hmore⟩ := hprefix
        cases hmore
        exact hnot _ rfl heq
      · exact hcontent hin

/-- A slash from which something remains opens nothing or a whole comment. -/
theorem Closed.slash_append {kinds : List (Char × Char)} {text inner : List Char} {c : Char}
    {rest : List Char} (heq : afterSlash text = inner ++ c :: rest) (h : Closed kinds inner) :
    ∃ front, Closed kinds front ∧ '/' :: text = front ++ c :: rest := by
  have hne : afterSlash text ≠ [] := by simp [heq]
  fun_cases afterSlash text with
  | case1 text =>
      obtain ⟨content, hcontent, hline⟩ := exists_of_afterLine_ne_nil hne
      rw [show afterLine text = inner ++ c :: rest from heq] at hline
      exact ⟨_, .lineComment hcontent h, by simp [hline]⟩
  | case2 text =>
      obtain ⟨content, hcontent, hblock⟩ := exists_of_afterBlockComment_ne_nil hne
      rw [show afterBlockComment text = inner ++ c :: rest from heq] at hblock
      exact ⟨_, .blockComment hcontent h, by simp [hblock]⟩
  | case3 text hslash hstar =>
      have htext : text = inner ++ c :: rest := by rwa [afterSlash.eq_3 text hslash hstar] at heq
      refine ⟨'/' :: inner, .slash ?_ ?_ h, by rw [htext, List.cons_append]⟩
      · intro hhead
        obtain ⟨tail, rfl⟩ := List.head?_eq_some_iff.1 hhead
        exact hslash _ htext
      · intro hhead
        obtain ⟨tail, rfl⟩ := List.head?_eq_some_iff.1 hhead
        exact hstar _ htext

theorem exists_of_afterQuote_ne_nil {quote : Char} {text : List Char}
    (h : afterQuote quote text ≠ []) :
    ∃ content, Escaped quote content ∧ text = content ++ quote :: afterQuote quote text := by
  fun_induction afterQuote quote text with
  | case1 => exact absurd rfl h
  | case2 => exact absurd rfl h
  | case3 d rest => exact ⟨[], .nil, rfl⟩
  | case4 d rest hne ih =>
      obtain ⟨content, hcontent, heq⟩ := ih h
      exact ⟨'\\' :: d :: content, .escape hcontent, by rw [List.cons_append, List.cons_append, ← heq]⟩
  | case5 c d rest hne hescape ih =>
      obtain ⟨content, hcontent, heq⟩ := ih h
      exact ⟨c :: content, .plain hne hescape hcontent, by rw [List.cons_append, ← heq]⟩

/-- What is passed over up to a closing bracket closes its own brackets, and
the closing bracket follows. -/
theorem exists_closed_of_afterBracket {k : Char × Char} (hk : k ∈ bracketKinds) (depth : Nat)
    (text : List Char) (h : afterBracket k.1 k.2 depth text ≠ []) :
    ∃ inner tail, Closed [k] inner ∧ text = inner ++ k.2 :: tail ∧
      afterBracket k.1 k.2 depth text = afterBracket k.1 k.2 depth (k.2 :: tail) := by
  induction hlength : text.length using Nat.strongRecOn generalizing depth text with
  | ind length ih =>
    subst hlength
    cases text with
    | nil => simp at h
    | cons c text =>
        by_cases hslash : c = '/'
        · subst hslash
          rw [afterBracket_slash] at h ⊢
          obtain ⟨inner, tail, hinner, heq, hafter⟩ :=
            ih _ (Nat.lt_succ_of_le (length_afterSlash_le text)) depth _ h rfl
          obtain ⟨front, hfront, htext⟩ := hinner.slash_append heq
          exact ⟨front, tail, hfront, htext, hafter⟩
        by_cases hquote : isQuote c = true
        · rw [afterBracket_quote _ _ _ hquote] at h ⊢
          have hne : afterQuote c text ≠ [] := fun hnil => by simp [hnil] at h
          obtain ⟨content, hcontent, htext⟩ := exists_of_afterQuote_ne_nil hne
          obtain ⟨inner, tail, hinner, heq, hafter⟩ :=
            ih _ (Nat.lt_succ_of_le (length_afterQuote_le c text)) depth _ h rfl
          refine ⟨_, tail, .literal hquote hcontent hinner, ?_, hafter⟩
          rw [List.cons_append, List.append_assoc, List.cons_append, ← heq, ← htext]
        by_cases hclosing : c = k.2
        · subst hclosing
          exact ⟨[], text, .nil, rfl, rfl⟩
        by_cases hopening : c = k.1
        · subst hopening
          rw [afterBracket_opening hk] at h ⊢
          -- The bracket is closed first, and then the one around it.
          obtain ⟨inner, tail, hinner, heq, hafter⟩ :=
            ih _ (Nat.lt_succ_self _) (depth + 1) text h rfl
          rw [hafter, afterBracket_closing hk] at h
          have hshort : tail.length < (k.1 :: text).length := by
            rw [heq, List.length_cons, List.length_append, List.length_cons]
            omega
          obtain ⟨behind, last, hbehind, htail, hlast⟩ := ih _ hshort depth tail h rfl
          refine ⟨_, last, .block List.mem_cons_self hinner hbehind, ?_, ?_⟩
          · rw [heq, htail]
            simp
          · rw [hafter, afterBracket_closing hk, hlast]
        · rw [afterBracket_cons _ _ _ hslash (by simpa using hquote) hopening hclosing] at h ⊢
          obtain ⟨inner, tail, hinner, heq, hafter⟩ := ih _ (Nat.lt_succ_self _) depth text h rfl
          refine ⟨c :: inner, tail, .code hslash (by simpa using hquote) ?_ hinner, ?_, hafter⟩
          · simpa using ⟨hopening, hclosing⟩
          · rw [heq, List.cons_append]

end JavaOutline
