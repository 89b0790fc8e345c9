import JavaOutline.Proofs.Invisible.Code

/-!
# JavaOutline.Proofs.Invisible.Statements

Scanning texts that hold the same code.  A step of an open statement on two
such texts leads to the same open statement before texts that hold the same
code (`SameCode.step`), and so does reading a statement to its end: the
tokens are the same, and so is the kind of the ending
(`SameCode.keptByScan`).
-/

namespace JavaOutline

open Text

/-- What is seen of a statement apart from its places. -/
def Statement.shape {place : Type} (s : Statement place) : Statement Unit := s.map fun _ => ()

namespace SameCode

variable {c : Char} {rest rest' : List Char}

/-! ## Boundaries -/

theorem isBlank_head?_skipBlanks (text : List Char) {d : Char}
    (h : (Text.skipBlanks text).head? = some d) : isBlank d = false := by
  have hnot := List.head?_dropWhile_not isBlank text
  rw [Text.skipBlanks] at h
  rw [h] at hnot
  simpa using hnot

/-- The character after blanks is the same. -/
theorem head?_skipBlanks_eq (h : SameCode rest rest') :
    (Text.skipBlanks rest).head? = (Text.skipBlanks rest').head? :=
  h.skipBlanks.head?_eq fun _ hd => isBlank_head?_skipBlanks rest hd

theorem boundary (hblank : isBlank c = false) (hslash : c ≠ '/')
    (h : SameCode (c :: rest) (c :: rest')) (s : OpenStatement) :
    (s.boundary c rest).1 = (s.boundary c rest').1 ∧
      SameCode (s.boundary c rest).2 (s.boundary c rest').2 := by
  refine OpenStatement.boundary_alike (fun hjoin => ?_) (fun hopen => ?_) h s
  · have hkinds : ∀ d ∈ ['.', ',', '<', '>', '[', ']', '?'], isQuote d = false := by decide
    have hquote : isQuote c = false := hkinds c (List.contains_iff_mem.1 hjoin)
    have hrest := h.tail hblank hslash hquote
    exact ⟨hrest.head?_skipBlanks_eq, hrest.skipBlanks, hrest⟩
  · have hrest := h.tail hblank hslash (by rw [hopen]; decide)
    exact hrest.afterBracket (by decide) (by decide) 0

/-! ## One step -/

theorem readEnding (h : SameCode rest rest') (s : OpenStatement) :
    AdvanceAlike SameCode (s.readEnding c rest) (s.readEnding c rest') :=
  .readEnding h (h.afterBracket (by decide) (by decide) 0) (h.initializerEnd .none) .nil s

/-- After a `)` a body follows in both texts or in neither. -/
theorem closeParenthesis_eq (h : SameCode rest rest') (s : OpenStatement) :
    s.closeParenthesis (Text.skipBlanks rest) = s.closeParenthesis (Text.skipBlanks rest') := by
  have hthrows : "throws".toList.isPrefixOf (Text.skipBlanks rest) =
      "throws".toList.isPrefixOf (Text.skipBlanks rest') :=
    isPrefixOf_eq (by decide) h.skipBlanks
  have hopens : OpenStatement.opensBody (Text.skipBlanks rest) =
      OpenStatement.opensBody (Text.skipBlanks rest') := by
    rw [OpenStatement.opensBody, OpenStatement.opensBody, hthrows, h.head?_skipBlanks_eq]
  rw [OpenStatement.closeParenthesis, OpenStatement.closeParenthesis, hopens]

/-- A step at blanks or a comment is a boundary at what follows them. -/
theorem afterGaps {text text' : List Char} (h : SameCode text text') (s : OpenStatement) :
    AdvanceAlike SameCode (s.afterGaps (JavaOutline.skipGaps text))
      (s.afterGaps (JavaOutline.skipGaps text')) := by
  have hgaps := h.skipGaps
  cases hleft : JavaOutline.skipGaps text with
  | nil =>
      rw [hleft] at hgaps
      rw [hgaps.eq_nil]
      exact .cutOff
  | cons d tail =>
      obtain ⟨hblank, hslash⟩ := not_gap_of_skipGaps_eq_cons hleft
      rw [hleft] at hgaps
      obtain ⟨tail', hright⟩ := hgaps.exists_cons hblank
      rw [hright] at hgaps ⊢
      exact .of_eq (hgaps.boundary hblank hslash s)

/-- Only a literal begins with a quote, so both texts go on after it. -/
theorem afterQuote (h : SameCode (c :: rest) (c :: rest')) (hblank : isBlank c = false)
    (hslash : c ≠ '/') (hquote : isQuote c = true) :
    SameCode (JavaOutline.afterQuote c rest) (JavaOutline.afterQuote c rest') := by
  generalize hs : c :: rest = left at h
  generalize ht : c :: rest' = right at h
  cases h with
  | literal hq hcontent hother h =>
      cases hs
      cases ht
      rwa [afterQuote_append hq hcontent, afterQuote_append hq hother]
  | nil => cases hs
  | code _ hnot => cases hs; rw [hnot] at hquote; cases hquote
  | blanks hrun hne =>
      rw [isBlank_of_append_eq_cons hrun hne hs.symm] at hblank
      cases hblank
  | slash => cases hs; exact absurd rfl hslash
  | lineComment => cases hs; exact absurd rfl hslash
  | blockComment => cases hs; exact absurd rfl hslash

/-- A gap begins in both texts or in neither. -/
theorem gap_iff {d : Char} (h : SameCode (c :: rest) (d :: rest')) (hc : isBlank c = true ∨ c = '/') :
    isBlank d = true ∨ d = '/' := by
  rcases hc with hblank | rfl
  · obtain ⟨d', _, heq, hd'⟩ := h.exists_blank hblank
    cases heq
    exact .inl hd'
  · obtain ⟨_, heq⟩ := h.exists_cons (by decide)
    cases heq
    exact .inr rfl

/-- A step of one statement on texts that hold the same code. -/
theorem step {d : Char} (h : SameCode (c :: rest) (d :: rest')) (s : OpenStatement) :
    AdvanceAlike SameCode (s.step c rest) (s.step d rest') := by
  by_cases hc : isBlank c = true ∨ c = '/'
  · rw [OpenStatement.step_of_gap hc, OpenStatement.step_of_gap (h.gap_iff hc)]
    exact h.afterGaps s
  obtain ⟨hblank, hslash⟩ := not_or.1 hc
  rw [Bool.not_eq_true] at hblank
  obtain ⟨_, heq⟩ := h.exists_cons hblank
  cases heq
  have hrest : isQuote c = false → SameCode rest rest' := h.tail hblank hslash
  cases s.step_cases c with
  | gap hgap _ => exact absurd hgap hc
  | boundary _ heq =>
      rw [heq, heq]
      exact .of_eq (h.boundary hblank hslash s)
  | quote hquote heq =>
      rw [heq, heq]
      exact .more (h.afterQuote hblank hslash hquote)
  | openParenthesis hopen _ heq =>
      rw [heq, heq]
      exact .more (hrest (hopen ▸ by decide))
  | closeParenthesis hclose _ heq =>
      have hafter := hrest (hclose ▸ by decide)
      rw [heq, heq, hafter.closeParenthesis_eq s]
      exact .more hafter.skipBlanks
  | ending hends _ heq =>
      have hkinds : ∀ d ∈ [':', ';', '\x7b', '\x7d', '='], isQuote d = false := by decide
      rw [heq, heq]
      exact (hrest (hkinds c (List.contains_iff_mem.1 hends))).readEnding s
  | angle hangle heq =>
      rw [heq, heq]
      exact .more (hrest (hangle ▸ by decide))
  | character _ hquote _ heq =>
      rw [heq, heq]
      exact .more (hrest hquote)

/-- Scanning texts that hold the same code comes to such texts again. -/
theorem keptByScan : KeptByScan SameCode :=
  .of_step (fun _ h => h.eq_nil) (fun _ _ _ h => h.exists_eq_cons) (fun _ _ h => h.skipGaps)
    fun s _ _ _ _ h => h.step s

/-! ## All statements -/

/-- The statements of a text with what ended them, without the places. -/
def shapes (text : List Char) : List (Statement Unit) := (statements text).map fun s => s.1.shape

theorem shapes_of_scan_eq_none {text : List Char} (h : JavaOutline.scan text = none) :
    shapes text = [] := by
  rw [shapes, statements]
  split
  · rfl
  · next h' => rw [h] at h'; cases h'

theorem shapes_of_scan {text rest : List Char} {statement : Statement (List Char)}
    (h : JavaOutline.scan text = some (statement, rest)) :
    shapes text = statement.shape :: shapes rest := by
  rw [shapes, statements]
  split
  · next h' => rw [h] at h'; cases h'
  · next h' => rw [h] at h'; cases h'; rfl

end SameCode

end JavaOutline
