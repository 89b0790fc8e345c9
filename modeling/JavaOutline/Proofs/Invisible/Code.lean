import JavaOutline.Proofs.ScannedAlike
import JavaOutline.Statement.Position

/-!
# JavaOutline.Proofs.Invisible.Code

Texts that hold the same code.  `SameCode s t` splits both texts into code
characters, runs of blanks, comments and literals, part by part: the code
characters are the same, and so are the kinds of the other parts, whose
contents are free.

Every reader of a text is followed on two such texts at once.  The readers
that pass over something stop at the same code (`SameCode.skipGaps`,
`SameCode.afterBracket`, `SameCode.initializerEnd`), so one step of a
statement leads to the same statement (`SameCode.step`), and scanning finds
the same tokens and endings (`SameCode.keptByScan`).
-/

namespace JavaOutline

open Text

/-! ## The relation -/

/-- Two texts that differ only in what is blank, in comments, or between
quotes. -/
inductive SameCode : List Char → List Char → Prop
  | nil : SameCode [] []
  /-- A code character other than a slash. -/
  | code {c : Char} {s t : List Char} (hblank : isBlank c = false) (hquote : isQuote c = false)
      (hslash : c ≠ '/') (h : SameCode s t) : SameCode (c :: s) (c :: t)
  /-- A slash that opens no comment. -/
  | slash {s t : List Char} (hslash : s.head? ≠ some '/') (hstar : s.head? ≠ some '*')
      (h : SameCode s t) : SameCode ('/' :: s) ('/' :: t)
  | blanks {run other s t : List Char} (hrun : AllBlank run) (hne : run ≠ [])
      (hother : AllBlank other) (hne' : other ≠ []) (h : SameCode s t) :
      SameCode (run ++ s) (other ++ t)
  | lineComment {content other s t : List Char} (hcontent : '\n' ∉ content)
      (hother : '\n' ∉ other) (h : SameCode s t) :
      SameCode ('/' :: '/' :: (content ++ '\n' :: s)) ('/' :: '/' :: (other ++ '\n' :: t))
  | blockComment {content other s t : List Char} (hcontent : WithoutClosing content)
      (hother : WithoutClosing other) (h : SameCode s t) :
      SameCode ('/' :: '*' :: (content ++ '*' :: '/' :: s))
        ('/' :: '*' :: (other ++ '*' :: '/' :: t))
  | literal {quote : Char} {content other s t : List Char} (hquote : isQuote quote = true)
      (hcontent : Escaped quote content) (hother : Escaped quote other) (h : SameCode s t) :
      SameCode (quote :: (content ++ quote :: s)) (quote :: (other ++ quote :: t))

namespace SameCode

variable {s t : List Char}

/-- The same code stays the same after several code characters. -/
theorem code_append (h : SameCode s t) (word : List Char)
    (hword : ∀ c ∈ word, isBlank c = false ∧ isQuote c = false ∧ c ≠ '/') :
    SameCode (word ++ s) (word ++ t) := by
  induction word with
  | nil => exact h
  | cons c word ih =>
      obtain ⟨hblank, hquote, hslash⟩ := hword c List.mem_cons_self
      exact .code hblank hquote hslash (ih fun d hd => hword d (List.mem_cons_of_mem c hd))

/-! ## First characters -/

theorem eq_nil (h : SameCode [] t) : t = [] := by
  generalize hs : ([] : List Char) = s at h
  cases h with
  | nil => rfl
  | blanks _ hne => rw [eq_comm, List.append_eq_nil_iff] at hs; exact absurd hs.1 hne
  | _ => cases hs

/-- What a run of blanks begins with. -/
theorem isBlank_of_append_eq_cons {run s rest : List Char} {c : Char} (h : AllBlank run)
    (hne : run ≠ []) (heq : run ++ s = c :: rest) : isBlank c = true := by
  cases run with
  | nil => exact absurd rfl hne
  | cons d run => cases heq; exact h _ List.mem_cons_self

/-- A character that is no blank is found again. -/
theorem exists_cons {c : Char} {rest : List Char} (h : SameCode (c :: rest) t)
    (hblank : isBlank c = false) : ∃ rest', t = c :: rest' := by
  generalize hs : c :: rest = s at h
  cases h with
  | nil => cases hs
  | code => cases hs; exact ⟨_, rfl⟩
  | slash => cases hs; exact ⟨_, rfl⟩
  | blanks hrun hne =>
      rw [isBlank_of_append_eq_cons hrun hne hs.symm] at hblank
      cases hblank
  | lineComment => cases hs; exact ⟨_, rfl⟩
  | blockComment => cases hs; exact ⟨_, rfl⟩
  | literal => cases hs; exact ⟨_, rfl⟩

/-- A blank is found again as a blank. -/
theorem exists_blank {c : Char} {rest : List Char} (h : SameCode (c :: rest) t)
    (hblank : isBlank c = true) : ∃ d rest', t = d :: rest' ∧ isBlank d = true := by
  generalize hs : c :: rest = s at h
  cases h with
  | nil => cases hs
  | code hcode => cases hs; rw [hcode] at hblank; cases hblank
  | slash => cases hs; exact absurd hblank (by decide)
  | @blanks _ other s' t' _ _ hother hne' =>
      obtain ⟨d, other', rfl⟩ := List.exists_cons_of_ne_nil hne'
      exact ⟨d, other' ++ t', rfl, hother d List.mem_cons_self⟩
  | lineComment => cases hs; exact absurd hblank (by decide)
  | blockComment => cases hs; exact absurd hblank (by decide)
  | literal hquote => cases hs; rw [isBlank_eq_false_of_isQuote hquote] at hblank; cases hblank

/-- Both texts are empty or neither is. -/
theorem exists_eq_cons {c : Char} {rest : List Char} (h : SameCode (c :: rest) t) :
    ∃ d rest', t = d :: rest' := by
  cases hc : isBlank c with
  | false => exact ⟨c, h.exists_cons hc⟩
  | true =>
      obtain ⟨d, rest', heq, _⟩ := h.exists_blank hc
      exact ⟨d, rest', heq⟩

/-- After a code character the texts still hold the same code. -/
theorem tail {c : Char} {rest rest' : List Char} (h : SameCode (c :: rest) (c :: rest'))
    (hblank : isBlank c = false) (hslash : c ≠ '/') (hquote : isQuote c = false) :
    SameCode rest rest' := by
  generalize hs : c :: rest = s at h
  generalize ht : c :: rest' = t at h
  cases h with
  | nil => cases hs
  | code _ _ _ h => cases hs; cases ht; exact h
  | slash => cases hs; exact absurd rfl hslash
  | blanks hrun hne =>
      rw [isBlank_of_append_eq_cons hrun hne hs.symm] at hblank
      cases hblank
  | lineComment => cases hs; exact absurd rfl hslash
  | blockComment => cases hs; exact absurd rfl hslash
  | literal hq => cases hs; rw [hq] at hquote; cases hquote

/-- Texts that do not begin with blanks begin alike. -/
theorem head?_eq (h : SameCode s t) (hblank : ∀ c, s.head? = some c → isBlank c = false) :
    s.head? = t.head? := by
  cases s with
  | nil => rw [h.eq_nil]
  | cons c rest =>
      obtain ⟨rest', rfl⟩ := h.exists_cons (hblank c rfl)
      rfl

/-- A word of code letters stands at the beginning of both texts or of
neither. -/
theorem isPrefixOf_eq {word : List Char} (hword : ∀ c ∈ word, isBlank c = false ∧
    c ≠ '/' ∧ isQuote c = false) (h : SameCode s t) : word.isPrefixOf s = word.isPrefixOf t := by
  induction word generalizing s t with
  | nil => simp
  | cons w word ih =>
      obtain ⟨hwblank, hwslash, hwquote⟩ := hword w List.mem_cons_self
      cases s with
      | nil => rw [h.eq_nil]
      | cons c rest =>
          by_cases hw : w = c
          · subst hw
            obtain ⟨rest', rfl⟩ := h.exists_cons hwblank
            have hrest := h.tail hwblank hwslash hwquote
            simp only [List.isPrefixOf, beq_self_eq_true, Bool.true_and]
            exact ih (fun d hd => hword d (List.mem_cons_of_mem w hd)) hrest
          · have hleft : (w :: word).isPrefixOf (c :: rest) = false := by
              simp [List.isPrefixOf, hw]
            rw [hleft]
            cases hc : isBlank c with
            | false =>
                obtain ⟨rest', rfl⟩ := h.exists_cons hc
                simp [List.isPrefixOf, hw]
            | true =>
                obtain ⟨d, rest', rfl, hd⟩ := h.exists_blank hc
                simp [List.isPrefixOf, (ne_of_isBlank hd hwblank).symm]

/-! ## Passing over -/

theorem skipBlanks (h : SameCode s t) :
    SameCode (Text.skipBlanks s) (Text.skipBlanks t) := by
  induction h with
  | nil => exact .nil
  | code hblank hquote hslash h =>
      rw [skipBlanks_cons_of_not_isBlank hblank, skipBlanks_cons_of_not_isBlank hblank]
      exact .code hblank hquote hslash h
  | slash hslash hstar h =>
      rw [skipBlanks_cons_of_not_isBlank (by decide), skipBlanks_cons_of_not_isBlank (by decide)]
      exact .slash hslash hstar h
  | blanks hrun _ hother _ _ ih =>
      rw [skipBlanks_blanks_append hrun, skipBlanks_blanks_append hother]
      exact ih
  | lineComment hcontent hother h =>
      rw [skipBlanks_cons_of_not_isBlank (by decide), skipBlanks_cons_of_not_isBlank (by decide)]
      exact .lineComment hcontent hother h
  | blockComment hcontent hother h =>
      rw [skipBlanks_cons_of_not_isBlank (by decide), skipBlanks_cons_of_not_isBlank (by decide)]
      exact .blockComment hcontent hother h
  | literal hquote hcontent hother h =>
      have hblank := isBlank_eq_false_of_isQuote hquote
      rw [skipBlanks_cons_of_not_isBlank hblank, skipBlanks_cons_of_not_isBlank hblank]
      exact .literal hquote hcontent hother h

/-- No comment is opened after a slash of the code, in either text. -/
theorem afterSlash_eq (hslash : s.head? ≠ some '/') (hstar : s.head? ≠ some '*')
    (h : SameCode s t) : afterSlash s = s ∧ afterSlash t = t := by
  refine ⟨afterSlash_eq_self hslash hstar, ?_⟩
  cases s with
  | nil => rw [h.eq_nil]; rfl
  | cons c rest =>
      cases hc : isBlank c with
      | false =>
          obtain ⟨rest', rfl⟩ := h.exists_cons hc
          exact afterSlash_eq_self hslash hstar
      | true =>
          obtain ⟨d, rest', rfl, hd⟩ := h.exists_blank hc
          apply afterSlash_eq_self
          · simpa using ne_of_isBlank hd (by decide)
          · simpa using ne_of_isBlank hd (by decide)

theorem skipGaps (h : SameCode s t) : SameCode (JavaOutline.skipGaps s) (JavaOutline.skipGaps t) := by
  induction h with
  | nil => simpa using SameCode.nil
  | code hblank hquote hslash h =>
      rw [skipGaps_cons_of_code hblank hslash, skipGaps_cons_of_code hblank hslash]
      exact .code hblank hquote hslash h
  | slash hslash hstar h ih =>
      obtain ⟨hs, ht⟩ := afterSlash_eq hslash hstar h
      rw [skipGaps_slash, skipGaps_slash, hs, ht]
      exact ih
  | blanks hrun _ hother _ _ ih =>
      rw [skipGaps_blanks_append hrun, skipGaps_blanks_append hother]
      exact ih
  | lineComment hcontent hother _ ih =>
      rw [skipGaps_lineComment hcontent, skipGaps_lineComment hother]
      exact ih
  | blockComment hcontent hother _ ih =>
      rw [skipGaps_blockComment hcontent, skipGaps_blockComment hother]
      exact ih
  | literal hquote hcontent hother h =>
      have hblank := isBlank_eq_false_of_isQuote hquote
      have hne := ne_of_isQuote hquote (d := '/') (by decide)
      rw [skipGaps_cons_of_code hblank hne, skipGaps_cons_of_code hblank hne]
      exact .literal hquote hcontent hother h

theorem afterBracket {opening closing : Char} (hopening : isBlank opening = false)
    (hclosing : isBlank closing = false) (h : SameCode s t) (depth : Nat) :
    SameCode (JavaOutline.afterBracket opening closing depth s)
      (JavaOutline.afterBracket opening closing depth t) := by
  induction h generalizing depth with
  | nil => simpa using SameCode.nil
  | @code c s t hblank hquote hslash h ih =>
      rw [JavaOutline.afterBracket.eq_def opening closing depth (c :: s),
        JavaOutline.afterBracket.eq_def opening closing depth (c :: t)]
      dsimp only
      have hnot : ¬ isQuote c = true := by simp [hquote]
      rw [if_neg hslash, if_neg hslash, if_neg hnot, if_neg hnot]
      split
      · exact ih (depth + 1)
      split
      · cases depth with
        | zero => exact h
        | succ outer => exact ih outer
      · exact ih depth
  | slash hslash hstar h ih =>
      obtain ⟨hs, ht⟩ := afterSlash_eq hslash hstar h
      rw [afterBracket_slash, afterBracket_slash, hs, ht]
      exact ih depth
  | blanks hrun _ hother _ _ ih =>
      rw [afterBracket_blanks_append _ _ _ hopening hclosing hrun,
        afterBracket_blanks_append _ _ _ hopening hclosing hother]
      exact ih depth
  | lineComment hcontent hother _ ih =>
      rw [afterBracket_slash, afterBracket_slash, afterSlash_lineComment hcontent,
        afterSlash_lineComment hother]
      exact ih depth
  | blockComment hcontent hother _ ih =>
      rw [afterBracket_slash, afterBracket_slash, afterSlash_blockComment hcontent,
        afterSlash_blockComment hother]
      exact ih depth
  | literal hquote hcontent hother _ ih =>
      rw [afterBracket_quote _ _ _ hquote, afterBracket_quote _ _ _ hquote,
        afterQuote_append hquote hcontent, afterQuote_append hquote hother]
      exact ih depth

theorem initializerEnd (h : SameCode s t) (o : OpenBrackets) :
    InitializerEndAlike SameCode (JavaOutline.initializerEnd o s)
      (JavaOutline.initializerEnd o t) := by
  induction h generalizing o with
  | nil => simpa using InitializerEndAlike.endOfText
  | @code c s t hblank hquote hslash h ih =>
      have hnot : ¬ isQuote c = true := by simp [hquote]
      rw [JavaOutline.initializerEnd, JavaOutline.initializerEnd, if_neg hslash, if_neg hslash,
        if_neg hnot, if_neg hnot]
      split
      · exact .semicolon h
      split
      · exact .comma (.code hblank hquote hslash h)
      · exact ih (o.after c)
  | slash hslash hstar h ih =>
      obtain ⟨hs, ht⟩ := afterSlash_eq hslash hstar h
      rw [initializerEnd_slash, initializerEnd_slash, hs, ht]
      exact ih o
  | blanks hrun _ hother _ _ ih =>
      rw [initializerEnd_blanks_append o hrun, initializerEnd_blanks_append o hother]
      exact ih o
  | lineComment hcontent hother _ ih =>
      rw [initializerEnd_slash, initializerEnd_slash, afterSlash_lineComment hcontent,
        afterSlash_lineComment hother]
      exact ih o
  | blockComment hcontent hother _ ih =>
      rw [initializerEnd_slash, initializerEnd_slash, afterSlash_blockComment hcontent,
        afterSlash_blockComment hother]
      exact ih o
  | literal hquote hcontent hother _ ih =>
      rw [initializerEnd_quote o hquote, initializerEnd_quote o hquote,
        afterQuote_append hquote hcontent, afterQuote_append hquote hother]
      exact ih o

end SameCode

end JavaOutline
