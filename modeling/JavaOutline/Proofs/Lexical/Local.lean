import JavaOutline.Proofs.Lexical.Ends
import JavaOutline.Proofs.Lexical.Parts

/-!
# JavaOutline.Proofs.Lexical.Local

What is passed over does not depend on the text behind it.  If something of a
text `t` remains when it is read in front of a text `x`, the same remains of it
in front of every other text (`Local`); blanks, comments, literals and
bracketed parts are passed over in this way (`local_skipGaps`,
`local_afterQuote`, `local_afterBracket` and so on).  The closing bracket may
as well be the last character of `t` (`afterBracket_append`), and so may the
`;` that ends an initializer (`initializerEnd_append`).
-/

namespace JavaOutline

open Text

/-- If something remains of a text that another one follows, then it remains
whatever follows. -/
def Local (f : List Char → List Char) : Prop :=
  ∀ t x : List Char, x.length < (f (t ++ x)).length → ∀ y, f (t ++ y) = f t ++ y

/-- What remains of a text is followed by what follows. -/
theorem Local.append_of_ne_nil {f : List Char → List Char} (h : Local f) {t : List Char}
    (hne : f t ≠ []) (y : List Char) : f (t ++ y) = f t ++ y := by
  refine h t [] ?_ y
  rw [List.append_nil]
  exact List.length_pos_iff.2 hne

/-- Where nothing remains of a text, of one more character at most itself
remains. -/
theorem Local.append_singleton {f : List Char → List Char} (h : Local f)
    (hsuffix : ∀ t, f t <:+ t) {t : List Char} (hnil : f t = []) (c : Char) :
    f (t ++ [c]) = [] ∨ f (t ++ [c]) = [c] := by
  by_cases hlength : [c].length < (f (t ++ [c])).length
  · right
    rw [h t [c] hlength, hnil, List.nil_append]
  · obtain ⟨before, hbefore⟩ := hsuffix (t ++ [c])
    rcases List.eq_nil_or_concat (f (t ++ [c])) with hempty | ⟨init, last, heq⟩
    · exact .inl hempty
    · right
      rw [heq, List.concat_eq_append, List.length_append] at hlength
      obtain rfl : init = [] := List.length_eq_zero_iff.1 (by simpa using hlength)
      rw [heq, List.concat_eq_append, List.nil_append] at hbefore ⊢
      rw [(List.append_inj_right' hbefore rfl)]

/-! ## Blanks and comments -/

theorem local_skipBlanks : Local skipBlanks := by
  intro t x h y
  induction t with
  | nil => exact absurd h (Nat.not_lt.2 (length_skipBlanks_le x))
  | cons c t ih =>
      cases hc : isBlank c with
      | true => simpa [skipBlanks, hc] using ih (by simpa [skipBlanks, hc] using h)
      | false => simp [skipBlanks, hc]

theorem local_afterLine : Local afterLine := by
  intro t x h y
  induction t with
  | nil => exact absurd h (Nat.not_lt.2 (length_afterLine_le x))
  | cons c t ih =>
      simp only [List.cons_append, afterLine] at h ⊢
      split
      · rfl
      · next hc =>
          rw [if_neg hc] at h
          exact ih h

/-- A block comment that is not closed here reaches into what follows. -/
theorem length_afterBlockComment_cons_le (c : Char) (rest : List Char) :
    (afterBlockComment (c :: rest)).length ≤ rest.length := by
  by_cases hend : c = '*' ∧ ∃ tail, rest = '/' :: tail
  · obtain ⟨rfl, tail, rfl⟩ := hend
    exact Nat.le_succ _
  · rw [afterBlockComment]
    · exact length_afterBlockComment_le rest
    · exact fun tail hc htail => hend ⟨hc, tail, htail⟩

theorem local_afterBlockComment : Local afterBlockComment := by
  intro t x h y
  fun_induction afterBlockComment t with
  | case1 => exact absurd h (Nat.not_lt.2 (length_afterBlockComment_le x))
  | case2 rest => rfl
  | case3 c rest hnot ih =>
      cases rest with
      | nil => exact absurd h (Nat.not_lt.2 (length_afterBlockComment_cons_le c x))
      | cons d rest =>
          have hskip : ∀ z : List Char,
              afterBlockComment (c :: d :: rest ++ z) = afterBlockComment (d :: rest ++ z) := by
            intro z
            rw [List.cons_append, afterBlockComment]
            intro tail hc htail
            cases htail
            exact hnot rest hc rfl
          rw [hskip] at h ⊢
          exact ih h

theorem local_afterSlash : Local afterSlash := by
  intro t x h y
  fun_cases afterSlash t with
  | case1 rest => exact local_afterLine rest x h y
  | case2 rest => exact local_afterBlockComment rest x h y
  | case3 _ hslash hstar =>
      cases t with
      | nil => exact absurd h (Nat.not_lt.2 (length_afterSlash_le x))
      | cons c t =>
          refine afterSlash_eq_self (fun hc => ?_) fun hc => ?_
          · cases hc
            exact hslash t rfl
          · cases hc
            exact hstar t rfl

theorem local_skipGaps : Local skipGaps := by
  intro t x h y
  fun_induction skipGaps t with
  | case1 => exact absurd h (Nat.not_lt.2 (length_skipGaps_le x))
  | case2 c rest hc ih =>
      rw [List.cons_append, skipGaps_cons_of_isBlank hc] at h ⊢
      exact ih h
  | case3 rest _ ih =>
      rw [List.cons_append, skipGaps_slash] at h ⊢
      have hslash := local_afterSlash rest x (Nat.lt_of_lt_of_le h (length_skipGaps_le _))
      rw [hslash] at h ⊢
      exact ih h
  | case4 c rest hblank hslash =>
      rw [List.cons_append, skipGaps_cons_of_code (by simpa using hblank) hslash]

/-! ## Literals and brackets -/

theorem length_afterQuote_cons_le (quote c : Char) (rest : List Char) :
    (afterQuote quote (c :: rest)).length ≤ rest.length := by
  cases rest with
  | nil => simp [afterQuote]
  | cons d rest =>
      rw [afterQuote]
      split
      · exact Nat.le_refl _
      split
      · exact Nat.le_succ_of_le (length_afterQuote_le quote rest)
      · exact length_afterQuote_le quote (d :: rest)

theorem local_afterQuote (quote : Char) : Local (afterQuote quote) := by
  intro t x h y
  fun_induction afterQuote quote t with
  | case1 => exact absurd h (Nat.not_lt.2 (length_afterQuote_le quote x))
  | case2 c => exact absurd h (Nat.not_lt.2 (length_afterQuote_cons_le quote c x))
  | case3 d rest => simp [afterQuote]
  | case4 d rest hquote ih =>
      simp only [List.cons_append, afterQuote, if_neg hquote, if_true] at h ⊢
      exact ih h
  | case5 c d rest hquote hescape ih =>
      simp only [List.cons_append, afterQuote, if_neg hquote, if_neg hescape] at h ⊢
      exact ih h

theorem length_afterBracket_cons_le (opening closing : Char) (depth : Nat) (c : Char)
    (rest : List Char) : (afterBracket opening closing depth (c :: rest)).length ≤ rest.length := by
  rw [afterBracket.eq_def]
  dsimp only
  split
  · exact Nat.le_trans (length_afterBracket_le ..) (length_afterSlash_le rest)
  split
  · exact Nat.le_trans (length_afterBracket_le ..) (length_afterQuote_le c rest)
  split
  · exact length_afterBracket_le ..
  split
  · split
    · exact Nat.le_refl _
    · exact length_afterBracket_le ..
  · exact length_afterBracket_le ..

/-- What remains behind a closed bracket is shorter than the text. -/
theorem length_afterBracket_lt {opening closing : Char} {depth : Nat} {text : List Char}
    (hne : afterBracket opening closing depth text ≠ []) :
    (afterBracket opening closing depth text).length < text.length := by
  cases text with
  | nil => exact absurd (afterBracket_nil opening closing depth) hne
  | cons c rest => exact Nat.lt_succ_of_le (length_afterBracket_cons_le opening closing depth c rest)

/-- A bracket that is closed in a text is closed there whatever follows. -/
theorem afterBracket_append {opening closing : Char} {depth : Nat} {t x : List Char}
    (h : x.length ≤ (afterBracket opening closing depth (t ++ x)).length)
    (hne : afterBracket opening closing depth (t ++ x) ≠ []) (y : List Char) :
    afterBracket opening closing depth (t ++ y) = afterBracket opening closing depth t ++ y := by
  fun_induction afterBracket opening closing depth t with
  | case1 depth => exact absurd h (Nat.not_le.2 (length_afterBracket_lt hne))
  | case2 depth rest ih =>
      rw [List.cons_append, afterBracket_slash] at h hne ⊢
      have hslash := local_afterSlash rest x (Nat.lt_of_le_of_lt h (length_afterBracket_lt hne))
      rw [hslash] at h hne ⊢
      exact ih h hne
  | case3 depth c rest _ hquote ih =>
      rw [List.cons_append, afterBracket_quote _ _ _ hquote] at h hne ⊢
      have hliteral := local_afterQuote c rest x (Nat.lt_of_le_of_lt h (length_afterBracket_lt hne))
      rw [hliteral] at h hne ⊢
      exact ih h hne
  | case4 depth rest hslash hquote ih =>
      have hopen : ∀ z, afterBracket opening closing depth (opening :: rest ++ z) =
          afterBracket opening closing (depth + 1) (rest ++ z) := by
        intro z
        rw [List.cons_append, afterBracket.eq_def]
        simp only [if_neg hslash, if_neg hquote, if_true]
      rw [hopen] at h hne ⊢
      exact ih h hne
  | case5 rest hslash hquote hopening =>
      rw [List.cons_append, afterBracket, if_neg hslash, if_neg hquote, if_neg hopening, if_pos rfl]
  | case6 rest outer hslash hquote hopening ih =>
      rw [List.cons_append, afterBracket, if_neg hslash, if_neg hquote, if_neg hopening,
        if_pos rfl] at h hne ⊢
      exact ih h hne
  | case7 depth c rest hslash hquote hopening hclosing ih =>
      rw [List.cons_append, afterBracket_cons _ _ _ hslash (by simpa using hquote) hopening hclosing]
        at h hne ⊢
      exact ih h hne

theorem local_afterBracket (opening closing : Char) (depth : Nat) :
    Local (afterBracket opening closing depth) := fun _ _ h =>
  afterBracket_append (Nat.le_of_lt h) (List.ne_nil_of_length_pos (Nat.zero_lt_of_lt h))

/-! ## Initializers -/

/-- The end of an initializer in a text that another one follows. -/
def InitializerEnd.append (y : List Char) : InitializerEnd → InitializerEnd
  | .comma text => .comma (text ++ y)
  | .semicolon rest => .semicolon (rest ++ y)
  | .endOfText => .endOfText

/-- Whether an initializer ends in front of the text `x` that follows. -/
def InitializerEnd.Before (x : List Char) : InitializerEnd → Prop
  | .comma text => x.length < text.length
  | .semicolon rest => x.length ≤ rest.length
  | .endOfText => False

theorem length_lt_of_initializerEnd_before {o : OpenBrackets} {text x : List Char}
    (h : (initializerEnd o text).Before x) : x.length < text.length := by
  cases hend : initializerEnd o text with
  | comma rest =>
      rw [hend] at h
      exact Nat.lt_of_lt_of_le h (length_le_of_initializerEnd_eq_comma hend)
  | semicolon rest =>
      rw [hend] at h
      exact Nat.lt_of_le_of_lt h (length_lt_of_initializerEnd_eq_semicolon hend)
  | endOfText =>
      rw [hend] at h
      cases h

/-- A blank does not end an initializer. -/
theorem initializerEnd_append_blank {o : OpenBrackets} {t : List Char}
    (h : initializerEnd o t = .endOfText) : initializerEnd o (t ++ [' ']) = .endOfText := by
  have hblank : ∀ o : OpenBrackets, initializerEnd o [' '] = .endOfText := by
    intro o
    have hrun : AllBlank [' '] := by decide
    rw [← List.append_nil [' '], initializerEnd_blanks_append o hrun, initializerEnd_nil]
  fun_induction initializerEnd o t with
  | case1 o => exact hblank o
  | case2 o rest ih =>
      rw [List.cons_append, initializerEnd_slash]
      by_cases hrest : afterSlash rest = []
      · rcases local_afterSlash.append_singleton afterSlash_suffix hrest ' ' with heq | heq
        · rw [heq, initializerEnd_nil]
        · rw [heq, hblank]
      · rw [local_afterSlash.append_of_ne_nil hrest]
        exact ih h
  | case3 o c rest _ hquote ih =>
      rw [List.cons_append, initializerEnd_quote _ hquote]
      by_cases hrest : afterQuote c rest = []
      · rcases (local_afterQuote c).append_singleton (afterQuote_suffix c) hrest ' ' with heq | heq
        · rw [heq, initializerEnd_nil]
        · rw [heq, hblank]
      · rw [(local_afterQuote c).append_of_ne_nil hrest]
        exact ih h
  | case4 => cases h
  | case5 => cases h
  | case6 o c rest hslash hquote hsemicolon hcomma ih =>
      rw [List.cons_append, initializerEnd_cons _ hslash (by simpa using hquote) hsemicolon hcomma]
      exact ih h

/-- A comma that ends an initializer is still to be read. -/
theorem ne_nil_of_initializerEnd_eq_comma {o : OpenBrackets} {text rest : List Char}
    (h : initializerEnd o text = .comma rest) : rest ≠ [] := by
  fun_induction initializerEnd o text with
  | case1 => cases h
  | case2 o tail ih => exact ih h
  | case3 o c tail _ _ ih => exact ih h
  | case4 => cases h
  | case5 =>
      cases h
      exact List.cons_ne_nil _ _
  | case6 => rename_i ih; exact ih h

/-- An initializer that ends in a text ends there whatever follows. -/
theorem initializerEnd_append {o : OpenBrackets} {t x : List Char}
    (h : (initializerEnd o (t ++ x)).Before x) (y : List Char) :
    initializerEnd o (t ++ y) = (initializerEnd o t).append y := by
  fun_induction initializerEnd o t with
  | case1 o => exact absurd (length_lt_of_initializerEnd_before h) (Nat.lt_irrefl _)
  | case2 o rest ih =>
      rw [List.cons_append, initializerEnd_slash] at h ⊢
      have hslash := local_afterSlash rest x (length_lt_of_initializerEnd_before h)
      rw [hslash] at h ⊢
      exact ih h
  | case3 o c rest _ hquote ih =>
      rw [List.cons_append, initializerEnd_quote _ hquote] at h ⊢
      have hliteral := local_afterQuote c rest x (length_lt_of_initializerEnd_before h)
      rw [hliteral] at h ⊢
      exact ih h
  | case4 o c rest hslash hquote hsemicolon =>
      rw [List.cons_append, initializerEnd, if_neg hslash, if_neg hquote, if_pos hsemicolon]
      rfl
  | case5 o c rest hslash hquote hsemicolon hcomma =>
      rw [List.cons_append, initializerEnd, if_neg hslash, if_neg hquote, if_neg hsemicolon,
        if_pos hcomma]
      rfl
  | case6 o c rest hslash hquote hsemicolon hcomma ih =>
      rw [List.cons_append, initializerEnd_cons _ hslash (by simpa using hquote) hsemicolon hcomma]
        at h ⊢
      exact ih h

end JavaOutline
