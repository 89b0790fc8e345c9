import JavaOutline.Text.Blank

/-!
# JavaOutline.Lexical.Skip

Passing over the parts of a text in which no declaration is looked for:
blanks and comments, literals, and bracketed parts.  Each function takes
the text after the character that opens such a part, and returns the text
after the part.  A part that is not closed reaches to the end of the text.

Every result is an end of the given text, which is stated here through
lengths (`length_afterSlash_le` and so on), as the readers that use these
functions end because the text gets shorter.
-/

namespace JavaOutline

open Text

/-! ## Comments -/

/-- The text after the first line break. -/
def afterLine : List Char → List Char
  | [] => []
  | c :: rest => if c = '\n' then rest else afterLine rest

/-- The text after the first `*/`. -/
def afterBlockComment : List Char → List Char
  | [] => []
  | '*' :: '/' :: rest => rest
  | _ :: rest => afterBlockComment rest

/-- The text after a slash and the comment that it may open. -/
def afterSlash : List Char → List Char
  | '/' :: rest => afterLine rest
  | '*' :: rest => afterBlockComment rest
  | rest => rest

theorem length_afterLine_le (text : List Char) : (afterLine text).length ≤ text.length := by
  induction text with
  | nil => exact Nat.le_refl _
  | cons c rest ih =>
    rw [afterLine]
    split
    · exact Nat.le_succ _
    · exact Nat.le_succ_of_le ih

theorem length_afterBlockComment_le (text : List Char) :
    (afterBlockComment text).length ≤ text.length := by
  fun_induction afterBlockComment text with
  | case1 => exact Nat.le_refl _
  | case2 rest => simp only [List.length_cons]; omega
  | case3 c rest _ ih => exact Nat.le_succ_of_le ih

theorem length_afterSlash_le (text : List Char) : (afterSlash text).length ≤ text.length := by
  fun_cases afterSlash text with
  | case1 rest => exact Nat.le_succ_of_le (length_afterLine_le rest)
  | case2 rest => exact Nat.le_succ_of_le (length_afterBlockComment_le rest)
  | case3 => exact Nat.le_refl _

/-! ## Blanks and comments together -/

/-- The text without the blanks and comments it begins with.  A slash
that opens no comment is passed over as well. -/
def skipGaps : List Char → List Char
  | [] => []
  | c :: rest =>
    if isBlank c then skipGaps rest
    else if c = '/' then skipGaps (afterSlash rest)
    else c :: rest
termination_by text => text.length
decreasing_by
  · exact Nat.lt_succ_self _
  · exact Nat.lt_succ_of_le (length_afterSlash_le rest)

theorem length_skipGaps_le (text : List Char) : (skipGaps text).length ≤ text.length := by
  fun_induction skipGaps text with
  | case1 => exact Nat.le_refl _
  | case2 c rest _ ih => exact Nat.le_succ_of_le ih
  | case3 rest _ ih => exact Nat.le_succ_of_le (Nat.le_trans ih (length_afterSlash_le rest))
  | case4 => exact Nat.le_refl _

/-- Where the first character is passed over, the text gets shorter. -/
theorem length_skipGaps_lt {c : Char} {rest : List Char} (h : isBlank c = true ∨ c = '/') :
    (skipGaps (c :: rest)).length < (c :: rest).length := by
  rw [skipGaps]
  split
  · exact Nat.lt_succ_of_le (length_skipGaps_le rest)
  · rename_i hb
    have hslash := h.resolve_left hb
    rw [if_pos hslash]
    exact Nat.lt_succ_of_le
      (Nat.le_trans (length_skipGaps_le _) (length_afterSlash_le rest))

/-- What remains begins with neither a blank nor a slash. -/
theorem not_gap_of_skipGaps_eq_cons {text rest : List Char} {c : Char}
    (h : skipGaps text = c :: rest) : isBlank c = false ∧ c ≠ '/' := by
  fun_induction skipGaps text with
  | case1 => cases h
  | case2 _ _ _ ih => exact ih h
  | case3 _ _ ih => exact ih h
  | case4 d r hb hs =>
    cases h
    exact ⟨by simpa using hb, hs⟩

/-! ## Literals -/

/-- Whether a character opens a string or character literal. -/
def isQuote (c : Char) : Bool := c == '"' || c == '\''

/-- The text after a literal of which the opening quote has been read.  A
backslash takes the next character with it. -/
def afterQuote (quote : Char) : List Char → List Char
  | [] => []
  | [_] => []
  | c :: d :: rest =>
    if c = quote then d :: rest
    else if c = '\\' then afterQuote quote rest
    else afterQuote quote (d :: rest)

theorem length_afterQuote_le (quote : Char) (text : List Char) :
    (afterQuote quote text).length ≤ text.length := by
  fun_induction afterQuote quote text with
  | case1 => exact Nat.le_refl _
  | case2 => exact Nat.zero_le _
  | case3 => exact Nat.le_succ _
  | case4 d rest _ ih => exact Nat.le_succ_of_le (Nat.le_succ_of_le ih)
  | case5 c d rest _ _ ih => exact Nat.le_succ_of_le ih

/-! ## Bracketed parts -/

/-- The text after the bracket that closes the one read last, with
`depth` brackets open around it.  Brackets in comments and literals do
not count. -/
def afterBracket (opening closing : Char) (depth : Nat) : List Char → List Char
  | [] => []
  | c :: rest =>
    if c = '/' then afterBracket opening closing depth (afterSlash rest)
    else if isQuote c then afterBracket opening closing depth (afterQuote c rest)
    else if c = opening then afterBracket opening closing (depth + 1) rest
    else if c = closing then
      match depth with
      | 0 => rest
      | outer + 1 => afterBracket opening closing outer rest
    else afterBracket opening closing depth rest
termination_by text => text.length
decreasing_by
  · exact Nat.lt_succ_of_le (length_afterSlash_le rest)
  · exact Nat.lt_succ_of_le (length_afterQuote_le c rest)
  all_goals exact Nat.lt_succ_self _

theorem length_afterBracket_le (opening closing : Char) (depth : Nat) (text : List Char) :
    (afterBracket opening closing depth text).length ≤ text.length := by
  fun_induction afterBracket opening closing depth text with
  | case1 => exact Nat.le_refl _
  | case2 depth rest ih => exact Nat.le_succ_of_le (Nat.le_trans ih (length_afterSlash_le rest))
  | case3 depth c rest _ _ ih =>
    exact Nat.le_succ_of_le (Nat.le_trans ih (length_afterQuote_le c rest))
  | case4 depth rest _ _ ih => exact Nat.le_succ_of_le ih
  | case5 => exact Nat.le_succ _
  | case6 => rename_i ih; exact Nat.le_succ_of_le ih
  | case7 => rename_i ih; exact Nat.le_succ_of_le ih

end JavaOutline
