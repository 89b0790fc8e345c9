import JavaOutline.Proofs.Lexical.Parts

/-!
# JavaOutline.Proofs.Lexical.Regions

The regions of a text.  Every character of a text is code or belongs to a
comment or a literal, and which of them it is can be said character by
character, from the front of the text (`classify`): `//` and `/*` open a
comment in code and a quote a literal, and nothing is opened inside of those.

The readers that pass over something do not look at regions, but they come
out in code again: `CodeUpTo state text rest cs` says that reading comes from
`text` to its end `rest` with the code characters `cs` in front of it.

* `codeUpTo_afterSlash`, `codeUpTo_afterQuote` — comments and literals hold no
  code, apart from a slash that opens nothing;
* `inStep_skipGaps`, `inStep_afterBracket`, `inStep_initializerEnd` and so on —
  what is passed over ends where code goes on.
-/

namespace JavaOutline

open Text

/-! ## Regions -/

/-- What a character of a text belongs to; the marks around comments and
literals belong to them. -/
inductive Region where
  | code
  | comment
  | literal
  deriving DecidableEq, Repr

/-- Inside of what the next character stands. -/
inductive LexicalState where
  | code
  | lineComment
  | blockComment
  /-- A literal that ends at the next quote of the kind. -/
  | literal (quote : Char)
  deriving DecidableEq, Repr

/-- The characters of a text, each with what it belongs to. -/
def classify : LexicalState → List Char → List (Char × Region)
  | .code, '/' :: '/' :: rest => ('/', .comment) :: ('/', .comment) :: classify .lineComment rest
  | .code, '/' :: '*' :: rest => ('/', .comment) :: ('*', .comment) :: classify .blockComment rest
  | .code, c :: rest =>
    if isQuote c then (c, .literal) :: classify (.literal c) rest
    else (c, .code) :: classify .code rest
  | .lineComment, c :: rest =>
    (c, .comment) :: classify (if c = '\n' then .code else .lineComment) rest
  | .blockComment, '*' :: '/' :: rest => ('*', .comment) :: ('/', .comment) :: classify .code rest
  | .blockComment, c :: rest => (c, .comment) :: classify .blockComment rest
  | .literal quote, '\\' :: c :: rest =>
    ('\\', .literal) :: (c, .literal) :: classify (.literal quote) rest
  | .literal quote, c :: rest =>
    (c, .literal) :: classify (if c = quote then .code else .literal quote) rest
  | _, [] => []

/-- The code among classified characters. -/
def codeOf (parts : List (Char × Region)) : List Char :=
  (parts.filter fun part => part.2 == .code).map Prod.fst

/-- The code characters of a text. -/
def code (text : List Char) : List Char := codeOf (classify .code text)

/-- The code characters at the positions from `start` to `stop`, if a text is
read from `start` on. -/
def codeBetween (text : List Char) (start stop : Nat) : List Char :=
  codeOf ((classify .code (text.drop start)).take (stop - start))

@[simp] theorem codeOf_append (xs ys : List (Char × Region)) :
    codeOf (xs ++ ys) = codeOf xs ++ codeOf ys := by
  simp [codeOf]

@[simp] theorem classify_nil (state : LexicalState) : classify state [] = [] := by
  cases state <;> rfl

/-- Every character is classified. -/
theorem map_fst_classify (state : LexicalState) (text : List Char) :
    (classify state text).map Prod.fst = text := by
  fun_induction classify state text <;> simp_all

@[simp] theorem length_classify (state : LexicalState) (text : List Char) :
    (classify state text).length = text.length := by
  rw [← List.length_map (f := Prod.fst), map_fst_classify]

/-- A character that opens nothing is code. -/
theorem classify_code_cons {c : Char} {rest : List Char} (hquote : isQuote c = false)
    (hslash : c = '/' → rest.head? ≠ some '/' ∧ rest.head? ≠ some '*') :
    classify .code (c :: rest) = (c, .code) :: classify .code rest := by
  rw [classify]
  · rw [if_neg (by simp [hquote])]
  · rintro tail rfl rfl
    exact (hslash rfl).1 rfl
  · rintro tail rfl rfl
    exact (hslash rfl).2 rfl

theorem classify_code_quote {quote : Char} (hquote : isQuote quote = true) (rest : List Char) :
    classify .code (quote :: rest) = (quote, .literal) :: classify (.literal quote) rest := by
  have hslash : quote ≠ '/' := ne_of_isQuote hquote (by decide)
  rw [classify]
  · rw [if_pos hquote]
  · exact fun _ h => absurd h hslash
  · exact fun _ h => absurd h hslash

theorem classify_literal_quote {quote : Char} (hquote : isQuote quote = true)
    (rest : List Char) :
    classify (.literal quote) (quote :: rest) = (quote, .literal) :: classify .code rest := by
  have hescape : quote ≠ '\\' := ne_of_isQuote hquote (by decide)
  cases rest <;> simp [classify, hescape]

/-! ## The code in front of an end of a text -/

/-- Reading comes from a text to its end `rest`, with the code characters `cs`
in front of it. -/
def CodeUpTo (state : LexicalState) (text rest cs : List Char) : Prop :=
  ∃ front, classify state text = front ++ classify .code rest ∧ codeOf front = cs

/-- Reading comes from code in a text to code in its end `rest`. -/
def InStep (text rest : List Char) : Prop := ∃ cs, CodeUpTo .code text rest cs

namespace CodeUpTo

variable {state : LexicalState} {text mid rest cs ds : List Char}

theorem refl (text : List Char) : CodeUpTo .code text text [] := ⟨[], rfl, rfl⟩

theorem trans (h : CodeUpTo state text mid cs) (h' : CodeUpTo .code mid rest ds) :
    CodeUpTo state text rest (cs ++ ds) := by
  obtain ⟨front, htext, rfl⟩ := h
  obtain ⟨next, hmid, rfl⟩ := h'
  exact ⟨front ++ next, by rw [htext, hmid, List.append_assoc], codeOf_append front next⟩

/-- A character in front that is no code is passed over. -/
theorem cons {state' : LexicalState} {c : Char} (region : Region) (hregion : region ≠ .code)
    (hclassify : classify state (c :: text) = (c, region) :: classify state' text)
    (h : CodeUpTo state' text rest cs) : CodeUpTo state (c :: text) rest cs := by
  obtain ⟨front, htext, rfl⟩ := h
  exact ⟨(c, region) :: front, by rw [hclassify, htext]; rfl, by simp [codeOf, hregion]⟩

/-- A character of code stands in front of what follows. -/
theorem single {c : Char} (hquote : isQuote c = false)
    (hslash : c = '/' → rest.head? ≠ some '/' ∧ rest.head? ≠ some '*') :
    CodeUpTo .code (c :: rest) rest [c] :=
  ⟨[(c, .code)], classify_code_cons hquote hslash, rfl⟩

theorem inStep (h : CodeUpTo .code text rest cs) : InStep text rest := ⟨cs, h⟩

/-- The code in front of an end of a text, by positions. -/
theorem codeOf_take (h : CodeUpTo .code text rest cs) :
    codeOf ((classify .code text).take (text.length - rest.length)) = cs := by
  obtain ⟨front, htext, rfl⟩ := h
  have hlength := congrArg List.length htext
  rw [length_classify, List.length_append, length_classify] at hlength
  rw [htext, List.take_left' (by omega)]

theorem code_eq (h : CodeUpTo .code text rest cs) : code text = cs ++ code rest := by
  obtain ⟨front, htext, rfl⟩ := h
  rw [code, htext, codeOf_append, code]

end CodeUpTo

namespace InStep

variable {text mid rest : List Char}

theorem refl (text : List Char) : InStep text text := (CodeUpTo.refl text).inStep

theorem trans (h : InStep text mid) (h' : InStep mid rest) : InStep text rest := by
  obtain ⟨cs, h⟩ := h
  obtain ⟨ds, h'⟩ := h'
  exact (h.trans h').inStep

/-- A character other than a slash and a quote is passed over. -/
theorem cons {c : Char} (hquote : isQuote c = false) (hslash : c ≠ '/') (h : InStep text rest) :
    InStep (c :: text) rest :=
  (CodeUpTo.single hquote fun heq => absurd heq hslash).inStep.trans h

end InStep

/-! ## Comments and literals -/

theorem codeUpTo_afterLine (text : List Char) :
    CodeUpTo .lineComment text (afterLine text) [] := by
  induction text with
  | nil => exact ⟨[], rfl, rfl⟩
  | cons c text ih =>
      rw [afterLine]
      split
      · next hc => exact .cons .comment (by decide) (by rw [classify, if_pos hc]) (.refl text)
      · next hc => exact .cons .comment (by decide) (by rw [classify, if_neg hc]) ih

theorem codeUpTo_afterBlockComment (text : List Char) :
    CodeUpTo .blockComment text (afterBlockComment text) [] := by
  fun_induction afterBlockComment text with
  | case1 => exact ⟨[], rfl, rfl⟩
  | case2 rest => exact ⟨[('*', .comment), ('/', .comment)], rfl, rfl⟩
  | case3 c rest hnot ih =>
      refine .cons .comment (by decide) ?_ ih
      rw [classify]
      exact fun tail hc hrest => hnot tail hc hrest

/-- After a slash no code comes but the slash itself, if it opens nothing. -/
theorem codeUpTo_afterSlash (rest : List Char) :
    CodeUpTo .code ('/' :: rest) (afterSlash rest) [] ∨
      CodeUpTo .code ('/' :: rest) (afterSlash rest) ['/'] := by
  fun_cases afterSlash rest with
  | case1 rest =>
      obtain ⟨front, htext, hcode⟩ := codeUpTo_afterLine rest
      exact .inl ⟨('/', .comment) :: ('/', .comment) :: front, by simp [classify, htext],
        by simpa [codeOf] using hcode⟩
  | case2 rest =>
      obtain ⟨front, htext, hcode⟩ := codeUpTo_afterBlockComment rest
      exact .inl ⟨('/', .comment) :: ('*', .comment) :: front, by simp [classify, htext],
        by simpa [codeOf] using hcode⟩
  | case3 _ hline hblock =>
      refine .inr (.single (by decide) fun _ => ⟨?_, ?_⟩)
      · intro hhead
        obtain ⟨tail, rfl⟩ := List.head?_eq_some_iff.1 hhead
        exact hline tail rfl
      · intro hhead
        obtain ⟨tail, rfl⟩ := List.head?_eq_some_iff.1 hhead
        exact hblock tail rfl

theorem codeUpTo_afterQuote {quote : Char} (hquote : isQuote quote = true) (text : List Char) :
    CodeUpTo (.literal quote) text (afterQuote quote text) [] := by
  have hescape : quote ≠ '\\' := ne_of_isQuote hquote (by decide)
  fun_induction afterQuote quote text with
  | case1 => exact ⟨[], rfl, rfl⟩
  | case2 c =>
      refine ⟨[(c, .literal)], ?_, rfl⟩
      rw [classify]
      · simp
      · simp
  | case3 d rest =>
      exact .cons .literal (by decide) (classify_literal_quote hquote _) (.refl _)
  | case4 d rest _ ih =>
      obtain ⟨front, htext, hcode⟩ := ih
      exact ⟨('\\', .literal) :: (d, .literal) :: front, by simp [classify, htext],
        by simpa [codeOf] using hcode⟩
  | case5 c d rest hne hbackslash ih =>
      refine .cons .literal (by decide) ?_ ih
      rw [classify, if_neg hne]
      exact fun _ _ h => absurd h hbackslash

/-! ## The code of a text, part by part -/

theorem code_cons {c : Char} {rest : List Char} (hquote : isQuote c = false)
    (hslash : c = '/' → rest.head? ≠ some '/' ∧ rest.head? ≠ some '*') :
    code (c :: rest) = c :: code rest :=
  (CodeUpTo.single hquote hslash).code_eq

/-- A whole literal holds no code. -/
theorem code_literal {quote : Char} (hquote : isQuote quote = true) {content : List Char}
    (hcontent : Escaped quote content) (rest : List Char) :
    code (quote :: (content ++ quote :: rest)) = code rest := by
  have hupto := CodeUpTo.cons .literal (by decide) (classify_code_quote hquote _)
    (codeUpTo_afterQuote hquote (content ++ quote :: rest))
  rw [afterQuote_append hquote hcontent] at hupto
  exact hupto.code_eq

/-- A whole comment holds no code. -/
theorem code_lineComment {content : List Char} (hcontent : '\n' ∉ content) (rest : List Char) :
    code ('/' :: '/' :: (content ++ '\n' :: rest)) = code rest := by
  obtain ⟨front, htext, hcode⟩ := codeUpTo_afterLine (content ++ '\n' :: rest)
  rw [afterLine_append hcontent] at htext
  rw [code, classify, htext, code]
  simpa [codeOf] using hcode

theorem code_blockComment {content : List Char} (hcontent : WithoutClosing content)
    (rest : List Char) : code ('/' :: '*' :: (content ++ '*' :: '/' :: rest)) = code rest := by
  obtain ⟨front, htext, hcode⟩ := codeUpTo_afterBlockComment (content ++ '*' :: '/' :: rest)
  rw [afterBlockComment_append hcontent] at htext
  rw [code, classify, htext, code]
  simpa [codeOf] using hcode

/-! ## What is passed over -/

theorem inStep_afterSlash (rest : List Char) : InStep ('/' :: rest) (afterSlash rest) := by
  rcases codeUpTo_afterSlash rest with h | h
  · exact h.inStep
  · exact h.inStep

theorem inStep_afterQuote {quote : Char} (hquote : isQuote quote = true) (rest : List Char) :
    InStep (quote :: rest) (afterQuote quote rest) :=
  (CodeUpTo.cons .literal (by decide) (classify_code_quote hquote rest)
    (codeUpTo_afterQuote hquote rest)).inStep

theorem inStep_skipBlanks (text : List Char) : InStep text (skipBlanks text) := by
  induction text with
  | nil => exact .refl _
  | cons c text ih =>
      cases hc : isBlank c with
      | true =>
          rw [skipBlanks, List.dropWhile_cons_of_pos hc]
          exact .cons (isQuote_eq_false_of_isBlank hc) (ne_of_isBlank hc (by decide)) ih
      | false =>
          rw [skipBlanks_cons_of_not_isBlank hc]
          exact .refl _

theorem inStep_skipGaps (text : List Char) : InStep text (skipGaps text) := by
  fun_induction skipGaps text with
  | case1 => exact .refl _
  | case2 c rest hc ih =>
      exact .cons (isQuote_eq_false_of_isBlank hc) (ne_of_isBlank hc (by decide)) ih
  | case3 rest _ ih => exact (inStep_afterSlash rest).trans ih
  | case4 => exact .refl _

theorem inStep_afterBracket (opening closing : Char) (depth : Nat) (text : List Char) :
    InStep text (afterBracket opening closing depth text) := by
  fun_induction afterBracket opening closing depth text with
  | case1 => exact .refl _
  | case2 depth rest ih => exact (inStep_afterSlash rest).trans ih
  | case3 depth c rest _ hquote ih => exact (inStep_afterQuote hquote rest).trans ih
  | case4 depth rest hslash hquote ih => exact .cons (by simpa using hquote) hslash ih
  | case5 rest hslash hquote => exact .cons (by simpa using hquote) hslash (.refl rest)
  | case6 rest outer hslash hquote _ ih => exact .cons (by simpa using hquote) hslash ih
  | case7 depth c rest hslash hquote _ _ ih => exact .cons (by simpa using hquote) hslash ih

/-- The text from the end of an initializer on. -/
def InitializerEnd.text : InitializerEnd → List Char
  | .comma text => text
  | .semicolon rest => rest
  | .endOfText => []

theorem inStep_initializerEnd (o : OpenBrackets) (text : List Char) :
    InStep text (initializerEnd o text).text := by
  fun_induction initializerEnd o text with
  | case1 => exact .refl _
  | case2 o rest ih => exact (inStep_afterSlash rest).trans ih
  | case3 o c rest _ hquote ih => exact (inStep_afterQuote hquote rest).trans ih
  | case4 o c rest hslash hquote => exact .cons (by simpa using hquote) hslash (.refl rest)
  | case5 => exact .refl _
  | case6 o c rest hslash hquote _ _ ih => exact .cons (by simpa using hquote) hslash ih

end JavaOutline
