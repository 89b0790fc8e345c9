import JavaOutline.Statement.Scan

/-!
# JavaOutline.Proofs.Lexical.Ends

Whatever is passed over, what remains is an end of the text: reading moves
along the text and never leaves it.

* `afterSlash_suffix`, `afterQuote_suffix`, `afterBracket_suffix` and so on
  — of the parts without code;
* `OpenStatement.step_stays` — of one step of a statement;
* `scan_suffix`, `block_suffix_of_scan` — of a whole statement, whose block
  stands behind a brace of the text.
-/

namespace JavaOutline

open Text

/-! ## Parts without code -/

theorem skipBlanks_suffix (text : List Char) : skipBlanks text <:+ text :=
  List.dropWhile_suffix _

theorem afterLine_suffix (text : List Char) : afterLine text <:+ text := by
  induction text with
  | nil => exact List.suffix_refl _
  | cons c rest ih =>
      rw [afterLine]
      split
      · exact List.suffix_cons c rest
      · exact ih.trans (List.suffix_cons c rest)

theorem afterBlockComment_suffix (text : List Char) : afterBlockComment text <:+ text := by
  fun_induction afterBlockComment text with
  | case1 => exact List.suffix_refl _
  | case2 rest => exact (List.suffix_cons '/' rest).trans (List.suffix_cons '*' _)
  | case3 c rest _ ih => exact ih.trans (List.suffix_cons c rest)

theorem afterSlash_suffix (text : List Char) : afterSlash text <:+ text := by
  fun_cases afterSlash text with
  | case1 rest => exact (afterLine_suffix rest).trans (List.suffix_cons '/' rest)
  | case2 rest => exact (afterBlockComment_suffix rest).trans (List.suffix_cons '*' rest)
  | case3 => exact List.suffix_refl _

theorem skipGaps_suffix (text : List Char) : skipGaps text <:+ text := by
  fun_induction skipGaps text with
  | case1 => exact List.suffix_refl _
  | case2 c rest _ ih => exact ih.trans (List.suffix_cons c rest)
  | case3 rest _ ih =>
      exact (ih.trans (afterSlash_suffix rest)).trans (List.suffix_cons '/' rest)
  | case4 => exact List.suffix_refl _

theorem afterQuote_suffix (quote : Char) (text : List Char) : afterQuote quote text <:+ text := by
  fun_induction afterQuote quote text with
  | case1 => exact List.suffix_refl _
  | case2 => exact List.nil_suffix
  | case3 => exact List.suffix_cons _ _
  | case4 d rest _ ih => exact (ih.trans (List.suffix_cons d rest)).trans (List.suffix_cons _ _)
  | case5 c d rest _ _ ih => exact ih.trans (List.suffix_cons c _)

theorem afterBracket_suffix (opening closing : Char) (depth : Nat) (text : List Char) :
    afterBracket opening closing depth text <:+ text := by
  fun_induction afterBracket opening closing depth text with
  | case1 => exact List.suffix_refl _
  | case2 depth rest ih =>
      exact (ih.trans (afterSlash_suffix rest)).trans (List.suffix_cons '/' rest)
  | case3 depth c rest _ _ ih =>
      exact (ih.trans (afterQuote_suffix c rest)).trans (List.suffix_cons c rest)
  | case4 depth rest _ _ ih => exact ih.trans (List.suffix_cons _ rest)
  | case5 => exact List.suffix_cons _ _
  | case6 => rename_i ih; exact ih.trans (List.suffix_cons _ _)
  | case7 => rename_i ih; exact ih.trans (List.suffix_cons _ _)

theorem initializerEnd_comma_suffix {o : OpenBrackets} {text rest : List Char}
    (h : initializerEnd o text = .comma rest) : rest <:+ text := by
  fun_induction initializerEnd o text with
  | case1 => cases h
  | case2 o tail ih =>
      exact ((ih h).trans (afterSlash_suffix tail)).trans (List.suffix_cons '/' tail)
  | case3 o c tail _ _ ih =>
      exact ((ih h).trans (afterQuote_suffix c tail)).trans (List.suffix_cons c tail)
  | case4 => cases h
  | case5 => cases h; exact List.suffix_refl _
  | case6 => rename_i ih; exact (ih h).trans (List.suffix_cons _ _)

theorem initializerEnd_semicolon_suffix {o : OpenBrackets} {text rest : List Char}
    (h : initializerEnd o text = .semicolon rest) : rest <:+ text := by
  fun_induction initializerEnd o text with
  | case1 => cases h
  | case2 o tail ih =>
      exact ((ih h).trans (afterSlash_suffix tail)).trans (List.suffix_cons '/' tail)
  | case3 o c tail _ _ ih =>
      exact ((ih h).trans (afterQuote_suffix c tail)).trans (List.suffix_cons c tail)
  | case4 => cases h; exact List.suffix_cons _ _
  | case5 => cases h
  | case6 => rename_i ih; exact (ih h).trans (List.suffix_cons _ _)

/-! ## Statements -/

/-- What reading on leaves is an end of a text, and a block stands behind a
brace of the text. -/
def Advance.Stays (text : List Char) : Advance → Prop
  | .more _ rest => rest <:+ text
  | .complete statement rest =>
    rest <:+ text ∧ ∀ body after, statement.ending = .block body after → '\x7b' :: body <:+ text
  | .cutOff => True

namespace OpenStatement

theorem joint_suffix (s : OpenStatement) (c : Char) (rest : List Char) :
    (s.joint c rest).2 <:+ rest := by
  dsimp only [joint]
  split
  · exact skipBlanks_suffix rest
  split
  · exact skipBlanks_suffix rest
  split
  all_goals exact List.suffix_refl _

theorem boundary_suffix (s : OpenStatement) (c : Char) (rest : List Char) :
    (s.boundary c rest).2 <:+ c :: rest := by
  rw [boundary]
  split
  · exact (joint_suffix s c rest).trans (List.suffix_cons c rest)
  split
  · exact (afterBracket_suffix '(' ')' 0 rest).trans (List.suffix_cons c rest)
  · exact List.suffix_refl _

/-- A statement that ends without a block only leaves its rest. -/
theorem stays_finish {s : OpenStatement} {ending : Ending (List Char)} {text rest : List Char}
    (hnot : ∀ body after, ending ≠ .block body after) (h : rest <:+ text) :
    (Advance.complete (s.finish ending) rest).Stays text :=
  ⟨h, fun body after hblock => absurd hblock (hnot body after)⟩

theorem readEnding_stays (s : OpenStatement) (c : Char) (rest : List Char) :
    (s.readEnding c rest).Stays (c :: rest) := by
  have hrest := List.suffix_cons c rest
  have hafter := (afterBracket_suffix '\x7b' '\x7d' 0 rest).trans hrest
  cases s.readEnding_cases c with
  | colon _ heq | enclosed heq => exact heq rest ▸ hrest
  | constantBody _ heq => exact heq rest ▸ hafter
  | block hopen heq =>
      rw [heq]
      refine ⟨hafter, fun body after hblock => ?_⟩
      cases hblock
      exact hopen ▸ List.suffix_refl _
  | initializer _ heq =>
      rw [heq]
      cases hend : initializerEnd .none rest with
      | comma => exact (initializerEnd_comma_suffix hend).trans hrest
      | semicolon => exact stays_finish (by simp) ((initializerEnd_semicolon_suffix hend).trans hrest)
      | endOfText => exact stays_finish (by simp) List.nil_suffix
  | closeBrace _ heq | label _ heq | semicolon heq =>
      exact heq rest ▸ stays_finish (by simp) hrest

/-- A step stays in the text. -/
theorem step_stays (s : OpenStatement) (c : Char) (rest : List Char) :
    (s.step c rest).Stays (c :: rest) := by
  have hrest := List.suffix_cons c rest
  cases s.step_cases c with
  | gap _ heq =>
      have hgap := skipGaps_suffix (c :: rest)
      rw [heq]
      cases hgaps : skipGaps (c :: rest) with
      | nil => trivial
      | cons d tail => exact (boundary_suffix s d tail).trans (hgaps ▸ hgap)
  | boundary _ heq => exact heq rest ▸ boundary_suffix s c rest
  | quote _ heq => exact heq rest ▸ (afterQuote_suffix c rest).trans hrest
  | closeParenthesis _ _ heq => exact heq rest ▸ (skipBlanks_suffix rest).trans hrest
  | ending _ _ heq => exact heq rest ▸ readEnding_stays s c rest
  | openParenthesis _ _ heq | angle _ heq | character _ _ _ heq => exact heq rest ▸ hrest

/-- Reading a statement stays in the text. -/
theorem read_stays {s : OpenStatement} {text rest : List Char} {statement : Statement (List Char)}
    (h : s.read text = some (statement, rest)) :
    (Advance.complete statement rest).Stays text := by
  fun_induction read s text with
  | case1 => cases h
  | case2 s c tail t next hstep ih =>
      have hnext : next <:+ c :: tail := by
        have hstays := step_stays s c tail
        rw [hstep] at hstays
        exact hstays
      obtain ⟨hrest, hblock⟩ := ih h
      exact ⟨hrest.trans hnext, fun body after heq => (hblock body after heq).trans hnext⟩
  | case3 s c tail statement next hstep =>
      cases h
      exact hstep ▸ step_stays s c tail
  | case4 => cases h

end OpenStatement

section

variable {text rest : List Char} {statement : Statement (List Char)}

theorem scan_stays (h : scan text = some (statement, rest)) :
    (Advance.complete statement rest).Stays (skipGaps text) :=
  OpenStatement.read_stays h

/-- What follows a statement is an end of the text. -/
theorem scan_suffix (h : scan text = some (statement, rest)) : rest <:+ text :=
  (scan_stays h).1.trans (skipGaps_suffix text)

/-- A block stands behind a brace of its text. -/
theorem block_suffix_of_scan {body after : List Char} (h : scan text = some (statement, rest))
    (hblock : statement.ending = .block body after) : '\x7b' :: body <:+ text :=
  ((scan_stays h).2 body after hblock).trans (skipGaps_suffix text)

/-- The text after a block is an end of the text inside. -/
theorem suffix_body_of_scan {body after : List Char} (h : scan text = some (statement, rest))
    (hblock : statement.ending = .block body after) : rest <:+ body := by
  have hbody : body <:+ text := (List.suffix_cons _ body).trans (block_suffix_of_scan h hblock)
  exact List.suffix_of_suffix_length_le (scan_suffix h) hbody
    ((within_of_scan h).2 body after hblock).2.1

end

end JavaOutline
