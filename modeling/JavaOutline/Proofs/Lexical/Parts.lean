import JavaOutline.Lexical.Initializer
import Mathlib.Data.List.TakeWhile

/-!
# JavaOutline.Proofs.Lexical.Parts

The parts of a text that hold no code: runs of blanks, comments and
literals.  Each is passed over as a whole, wherever it stands:

* `afterLine_append`, `afterBlockComment_append`, `afterQuote_append` —
  the readers stop right after the part;
* `skipGaps_blanks_append`, `skipGaps_lineComment`, `skipGaps_blockComment`
  — so blanks and comments before a text do not matter.
-/

namespace JavaOutline

open Text

/-! ## What the parts are made of -/

/-- What holds of all characters of a list is decided along the list, and not
by way of all characters that there are. -/
instance (priority := 2000) decidableForallMem {p : Char → Prop} [DecidablePred p]
    (cs : List Char) : Decidable (∀ c ∈ cs, p c) :=
  List.decidableBAll p cs

/-- A run of blanks, which may be empty. -/
def AllBlank (run : List Char) : Prop := ∀ c ∈ run, isBlank c = true

theorem allBlank_takeWhile (text : List Char) : AllBlank (text.takeWhile isBlank) :=
  fun _ hc => List.mem_takeWhile_imp hc

/-- What may stand in a comment that ends in `*/`. -/
def WithoutClosing (content : List Char) : Prop := ¬ ['*', '/'] <:+: content

instance (run : List Char) : Decidable (AllBlank run) :=
  inferInstanceAs (Decidable (∀ c ∈ run, isBlank c = true))

instance (content : List Char) : Decidable (WithoutClosing content) :=
  inferInstanceAs (Decidable (¬ ['*', '/'] <:+: content))

/-- What may stand between two quotes: a backslash takes the next
character with it, and no other quote of the kind occurs. -/
inductive Escaped (quote : Char) : List Char → Prop
  | nil : Escaped quote []
  | plain {c : Char} {rest : List Char} (hquote : c ≠ quote) (hescape : c ≠ '\\')
      (h : Escaped quote rest) : Escaped quote (c :: rest)
  | escape {c : Char} {rest : List Char} (h : Escaped quote rest) :
      Escaped quote ('\\' :: c :: rest)

theorem isQuote_iff {c : Char} : isQuote c = true ↔ c = '"' ∨ c = '\'' := by
  simp [isQuote]

theorem ne_of_isQuote {c d : Char} (hc : isQuote c = true) (hd : isQuote d = false) : c ≠ d := by
  intro heq
  rw [heq, hd] at hc
  cases hc

theorem ne_of_isBlank {c d : Char} (hc : isBlank c = true) (hd : isBlank d = false) : c ≠ d := by
  intro heq
  rw [heq, hd] at hc
  cases hc

theorem isBlank_eq_false_of_isQuote {c : Char} (h : isQuote c = true) : isBlank c = false := by
  rcases isQuote_iff.1 h with rfl | rfl <;> decide

theorem isQuote_eq_false_of_isBlank {c : Char} (h : isBlank c = true) : isQuote c = false := by
  cases hq : isQuote c with
  | false => rfl
  | true => rw [isBlank_eq_false_of_isQuote hq] at h; cases h

/-! ## Ends of comments and literals -/

theorem afterLine_append {content : List Char} (h : '\n' ∉ content) (rest : List Char) :
    afterLine (content ++ '\n' :: rest) = rest := by
  induction content with
  | nil => rfl
  | cons c content ih =>
      rw [List.mem_cons, not_or] at h
      rw [List.cons_append, afterLine, if_neg (Ne.symm h.1)]
      exact ih h.2

theorem afterBlockComment_append {content : List Char} (h : WithoutClosing content)
    (rest : List Char) : afterBlockComment (content ++ '*' :: '/' :: rest) = rest := by
  induction content with
  | nil => rfl
  | cons c content ih =>
      have hrest : WithoutClosing content := fun hin => h (hin.trans (List.suffix_cons c _).isInfix)
      have hnot : ∀ tail, c = '*' → content ++ '*' :: '/' :: rest ≠ '/' :: tail := by
        rintro tail rfl heq
        cases content with
        | nil => cases heq
        | cons d content =>
            cases heq
            exact h ⟨[], content, rfl⟩
      rw [List.cons_append, afterBlockComment]
      · exact ih hrest
      · intro tail hstar heq
        exact hnot tail hstar heq

/-- A slash opens no comment unless a slash or a star follows. -/
theorem afterSlash_eq_self {text : List Char} (hslash : text.head? ≠ some '/')
    (hstar : text.head? ≠ some '*') : afterSlash text = text := by
  fun_cases afterSlash text with
  | case1 => simp at hslash
  | case2 => simp at hstar
  | case3 => rfl

theorem afterSlash_lineComment {content : List Char} (h : '\n' ∉ content) (rest : List Char) :
    afterSlash ('/' :: (content ++ '\n' :: rest)) = rest :=
  afterLine_append h rest

theorem afterSlash_blockComment {content : List Char} (h : WithoutClosing content)
    (rest : List Char) : afterSlash ('*' :: (content ++ '*' :: '/' :: rest)) = rest :=
  afterBlockComment_append h rest

/-- The text after a literal begins after its closing quote. -/
theorem afterQuote_append {quote : Char} (hquote : isQuote quote = true) {content : List Char}
    (h : Escaped quote content) (rest : List Char) :
    afterQuote quote (content ++ quote :: rest) = rest := by
  induction h with
  | nil => cases rest <;> simp [afterQuote]
  | @plain c tail hne hescape _ ih =>
      obtain ⟨d, more, hmore⟩ : ∃ d more, tail ++ quote :: rest = d :: more := by
        cases tail with
        | nil => exact ⟨_, _, rfl⟩
        | cons d tail => exact ⟨_, _, rfl⟩
      rw [List.cons_append, hmore, afterQuote, if_neg hne, if_neg hescape, ← hmore]
      exact ih
  | @escape c tail _ ih =>
      have hne : '\\' ≠ quote := fun heq => by rw [← heq] at hquote; exact absurd hquote (by decide)
      rw [List.cons_append, List.cons_append, afterQuote, if_neg hne, if_pos rfl]
      exact ih

/-! ## Blanks and comments at the beginning -/

theorem skipBlanks_blanks_append {run : List Char} (h : AllBlank run) (text : List Char) :
    skipBlanks (run ++ text) = skipBlanks text := by
  rw [skipBlanks, List.dropWhile_append_of_pos h]
  rfl

theorem skipBlanks_cons_of_not_isBlank {c : Char} (h : isBlank c = false) (rest : List Char) :
    skipBlanks (c :: rest) = c :: rest := by
  rw [skipBlanks, List.dropWhile_cons_of_neg (by simp [h])]

@[simp] theorem skipGaps_nil : skipGaps [] = [] := by rw [skipGaps]

theorem skipGaps_cons_of_isBlank {c : Char} (h : isBlank c = true) (rest : List Char) :
    skipGaps (c :: rest) = skipGaps rest := by
  rw [skipGaps, if_pos h]

@[simp] theorem skipGaps_slash (rest : List Char) :
    skipGaps ('/' :: rest) = skipGaps (afterSlash rest) := by
  rw [skipGaps, if_neg (by decide), if_pos rfl]

theorem skipGaps_cons_of_code {c : Char} (hblank : isBlank c = false) (hslash : c ≠ '/')
    (rest : List Char) : skipGaps (c :: rest) = c :: rest := by
  rw [skipGaps, if_neg (by simp [hblank]), if_neg hslash]

theorem skipGaps_blanks_append {run : List Char} (h : AllBlank run) (text : List Char) :
    skipGaps (run ++ text) = skipGaps text := by
  induction run with
  | nil => rfl
  | cons c run ih =>
      rw [List.cons_append, skipGaps_cons_of_isBlank (h c List.mem_cons_self)]
      exact ih fun d hd => h d (List.mem_cons_of_mem c hd)

theorem skipGaps_lineComment {content : List Char} (h : '\n' ∉ content) (rest : List Char) :
    skipGaps ('/' :: '/' :: (content ++ '\n' :: rest)) = skipGaps rest := by
  rw [skipGaps_slash, afterSlash_lineComment h]

theorem skipGaps_blockComment {content : List Char} (h : WithoutClosing content)
    (rest : List Char) : skipGaps ('/' :: '*' :: (content ++ '*' :: '/' :: rest)) = skipGaps rest := by
  rw [skipGaps_slash, afterSlash_blockComment h]

/-! ## Passing over inside brackets -/

section

variable (opening closing : Char) (depth : Nat)

@[simp] theorem afterBracket_nil : afterBracket opening closing depth [] = [] := by
  rw [afterBracket]

@[simp] theorem afterBracket_slash (rest : List Char) :
    afterBracket opening closing depth ('/' :: rest) =
      afterBracket opening closing depth (afterSlash rest) := by
  rw [afterBracket.eq_def]
  exact if_pos rfl

theorem afterBracket_quote {quote : Char} (h : isQuote quote = true) (rest : List Char) :
    afterBracket opening closing depth (quote :: rest) =
      afterBracket opening closing depth (afterQuote quote rest) := by
  rw [afterBracket.eq_def]
  dsimp only
  rw [if_neg (ne_of_isQuote h (by decide)), if_pos h]

/-- A character that is neither bracket nor slash nor quote is passed over. -/
theorem afterBracket_cons {c : Char} (hslash : c ≠ '/') (hquote : isQuote c = false)
    (hopening : c ≠ opening) (hclosing : c ≠ closing) (rest : List Char) :
    afterBracket opening closing depth (c :: rest) =
      afterBracket opening closing depth rest := by
  rw [afterBracket.eq_def]
  dsimp only
  rw [if_neg hslash, if_neg (by simp [hquote]), if_neg hopening, if_neg hclosing]

theorem afterBracket_blanks_append (hopening : isBlank opening = false)
    (hclosing : isBlank closing = false) {run : List Char} (h : AllBlank run)
    (text : List Char) : afterBracket opening closing depth (run ++ text) =
      afterBracket opening closing depth text := by
  induction run with
  | nil => rfl
  | cons c run ih =>
      have hc := h c List.mem_cons_self
      rw [List.cons_append, afterBracket_cons opening closing depth
        (ne_of_isBlank hc (by decide)) (isQuote_eq_false_of_isBlank hc)
        (ne_of_isBlank hc hopening) (ne_of_isBlank hc hclosing)]
      exact ih fun d hd => h d (List.mem_cons_of_mem c hd)

end

/-! ## Passing over inside an initializer -/

section

variable (o : OpenBrackets)

@[simp] theorem initializerEnd_nil : initializerEnd o [] = .endOfText := by
  rw [initializerEnd]

@[simp] theorem initializerEnd_slash (rest : List Char) :
    initializerEnd o ('/' :: rest) = initializerEnd o (afterSlash rest) := by
  rw [initializerEnd, if_pos rfl]

theorem initializerEnd_quote {quote : Char} (h : isQuote quote = true) (rest : List Char) :
    initializerEnd o (quote :: rest) = initializerEnd o (afterQuote quote rest) := by
  rw [initializerEnd, if_neg (ne_of_isQuote h (by decide)), if_pos h]

/-- A character that neither ends an initializer nor begins a part of its
own changes at most the open brackets. -/
theorem initializerEnd_cons {c : Char} (hslash : c ≠ '/') (hquote : isQuote c = false)
    (hsemicolon : ¬ (c = ';' ∧ o.isOutside = true))
    (hcomma : ¬ (c = ',' ∧ o.isOutside = true ∧ o.angle = 0)) (rest : List Char) :
    initializerEnd o (c :: rest) = initializerEnd (o.after c) rest := by
  rw [initializerEnd, if_neg hslash, if_neg (by simp [hquote]), if_neg hsemicolon, if_neg hcomma]

theorem after_of_isBlank {c : Char} (h : isBlank c = true) : o.after c = o := by
  unfold OpenBrackets.after
  split <;> first | rfl | exact absurd h (by decide)

theorem initializerEnd_blanks_append {run : List Char} (h : AllBlank run) (text : List Char) :
    initializerEnd o (run ++ text) = initializerEnd o text := by
  induction run with
  | nil => rfl
  | cons c run ih =>
      have hc := h c List.mem_cons_self
      rw [List.cons_append, initializerEnd_cons o (ne_of_isBlank hc (by decide))
        (isQuote_eq_false_of_isBlank hc) (fun h => ne_of_isBlank hc (by decide) h.1)
        (fun h => ne_of_isBlank hc (by decide) h.1), after_of_isBlank o hc]
      exact ih fun d hd => h d (List.mem_cons_of_mem c hd)

end

end JavaOutline
