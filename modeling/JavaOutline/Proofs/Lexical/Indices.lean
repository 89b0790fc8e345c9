import JavaOutline.Proofs.Lexical.Parts

/-!
# JavaOutline.Proofs.Lexical.Indices

Passing over parts of a text by indices.

The functions of `Indexed` read a text by the numbers of its characters.
Looking whether there is a character is always allowed.  Taking a character
or an end of the text where there is none is not (`Indexed.character?`,
`Indexed.slice?`), and whatever comes to that has no result.

They all have one, which is where the functions on texts lead: if a text
begins at an index (`Begins`), what remains of it after a part begins at the
index that is found (`Indexed.leads_afterComment` and so on).
-/

namespace JavaOutline

open Text

/-! ## Texts and indices -/

/-- Whether a text is what begins at an index of another, which is then one of
its characters or its end. -/
structure Begins (source : List Char) (index : Nat) (text : List Char) : Prop where
  le_length : index ≤ source.length
  drop_eq : source.drop index = text

/-- Whether an index is found at which a text begins. -/
def Leads (source : List Char) (found : Option Nat) (text : List Char) : Prop :=
  ∃ index, found = some index ∧ Begins source index text

section

variable {source text rest : List Char} {index : Nat} {c : Char}

theorem begins_drop (h : index ≤ source.length) : Begins source index (source.drop index) :=
  ⟨h, rfl⟩

theorem Begins.length_eq (h : Begins source index text) : text.length + index = source.length := by
  have hle := h.le_length
  rw [← h.drop_eq, List.length_drop]
  omega

/-- The index at which nothing begins is the end. -/
theorem Begins.eq_length (h : Begins source index []) : index = source.length := by
  simpa using h.length_eq

theorem begins_nil (source : List Char) : Begins source source.length [] :=
  ⟨Nat.le_refl _, List.drop_length⟩

theorem Begins.getElem?_eq (h : Begins source index text) : source[index]? = text.head? := by
  rw [← h.drop_eq, List.head?_drop]

/-- Behind the first character the rest begins. -/
theorem Begins.tail (h : Begins source index (c :: rest)) : Begins source (index + 1) rest := by
  have hlength := h.length_eq
  rw [List.length_cons] at hlength
  refine ⟨by omega, ?_⟩
  rw [← List.tail_drop, h.drop_eq, List.tail_cons]

/-- Where there is a character, a text begins. -/
theorem begins_of_getElem?_eq_some (h : source[index]? = some c) :
    Begins source index (c :: source.drop (index + 1)) := by
  obtain ⟨hlt, hc⟩ := List.getElem?_eq_some_iff.1 h
  refine ⟨Nat.le_of_lt hlt, ?_⟩
  rw [List.drop_eq_getElem_cons hlt, hc]

end

namespace Indexed

variable (source : List Char)

/-! ## Reading by indices -/

/-- The character at an index. -/
def character? (index : Nat) : Option Char := source[index]?

/-- What begins at an index. -/
def slice? (index : Nat) : Option (List Char) :=
  if index ≤ source.length then some (source.drop index) else none

/-- The index after the blanks at an index. -/
def afterBlanks (index : Nat) : Nat :=
  match _ : source[index]? with
  | none => index
  | some c => if isBlank c then afterBlanks (index + 1) else index
termination_by source.length - index
decreasing_by
  have hlt := (List.getElem?_eq_some_iff.1 ‹_›).1
  omega

/-- The index after the first `*/` from an index on. -/
def afterBlockComment? (index : Nat) : Option Nat :=
  if index + 1 < source.length then do
    let c ← character? source index
    let d ← character? source (index + 1)
    if c = '*' ∧ d = '/' then return index + 2
    else afterBlockComment? (index + 1)
  else some source.length
termination_by source.length - index

/-- The index after the comment that a slash at an index may open. -/
def afterComment? (index : Nat) : Option Nat :=
  match source[index + 1]? with
  | some '/' => do
    let line ← slice? source (index + 2)
    match line.findIdx? (· == '\n') with
    | some i => return index + 2 + i + 1
    | none => return source.length
  | some '*' => afterBlockComment? source (index + 2)
  | _ => some (index + 1)

/-- The index after a literal whose opening quote stands before an index. -/
def afterQuoted (quote : Char) (index : Nat) : Nat :=
  match _ : source[index]? with
  | none => source.length
  | some c =>
    if c = quote then index + 1
    else if c = '\\' then afterQuoted quote (index + 2)
    else afterQuoted quote (index + 1)
termination_by source.length - index
decreasing_by
  all_goals
    have hlt := (List.getElem?_eq_some_iff.1 ‹_›).1
    omega

/-- The index after the literal that a quote at an index opens. -/
def afterLiteral? (index : Nat) : Option Nat := do
  let quote ← character? source index
  return afterQuoted source quote (index + 1)

section

variable {source text rest : List Char} {index : Nat}

/-- What begins at an index can be taken. -/
theorem slice?_of_begins (h : Begins source index text) : slice? source index = some text := by
  rw [slice?, if_pos h.le_length, h.drop_eq]

theorem begins_afterBlanks (h : Begins source index text) :
    Begins source (afterBlanks source index) (skipBlanks text) := by
  induction text generalizing index with
  | nil =>
    rw [afterBlanks]
    split
    · exact h
    · next hc => simp [h.getElem?_eq] at hc
  | cons c rest ih =>
    rw [afterBlanks]
    split
    · next hnone => simp [h.getElem?_eq] at hnone
    · next d hd =>
      obtain rfl : c = d := by simpa [h.getElem?_eq] using hd
      cases hblank : isBlank c with
      | true => simpa [skipBlanks, hblank] using ih h.tail
      | false => simpa [skipBlanks, hblank] using h

theorem leads_afterBlockComment (h : Begins source index text) :
    Leads source (afterBlockComment? source index) (afterBlockComment text) := by
  induction text generalizing index with
  | nil =>
    have hlength := h.eq_length
    rw [afterBlockComment?, if_neg (by omega)]
    exact ⟨_, rfl, begins_nil source⟩
  | cons c rest ih =>
    have hlength := h.length_eq
    have hc : source[index]? = some c := h.getElem?_eq
    have hd : source[index + 1]? = rest.head? := h.tail.getElem?_eq
    rw [afterBlockComment?]
    cases rest with
    | nil =>
      rw [if_neg (by simp at hlength; omega)]
      simpa [afterBlockComment] using ⟨_, rfl, begins_nil source⟩
    | cons d rest =>
      rw [if_pos (by simp at hlength; omega)]
      simp only [character?, hc, hd, List.head?_cons, Option.bind_eq_bind, Option.bind_some]
      split
      · next hend =>
        obtain ⟨rfl, rfl⟩ := hend
        exact ⟨_, rfl, h.tail.tail⟩
      · next hnot =>
        rw [JavaOutline.afterBlockComment]
        · exact ih h.tail
        · rintro _ rfl heq
          cases heq
          exact hnot ⟨rfl, rfl⟩

/-- Where a line ends. -/
theorem begins_afterLine (h : Begins source index text) :
    Begins source (match text.findIdx? (· == '\n') with
      | some i => index + i + 1
      | none => source.length) (afterLine text) := by
  induction text generalizing index with
  | nil => exact begins_nil source
  | cons c rest ih =>
    rw [afterLine, List.findIdx?_cons]
    by_cases hbreak : c = '\n'
    · simpa [hbreak] using h.tail
    · have hrest := ih h.tail
      rw [if_neg hbreak, if_neg (by simpa using hbreak)]
      cases hindex : rest.findIdx? (· == '\n') with
      | none => simpa [hindex] using hrest
      | some i =>
        rw [hindex] at hrest
        simpa [Nat.add_assoc, Nat.add_comm 1] using hrest

theorem leads_afterComment (h : Begins source index ('/' :: rest)) :
    Leads source (afterComment? source index) (afterSlash rest) := by
  have hnext : source[index + 1]? = rest.head? := h.tail.getElem?_eq
  rw [afterComment?, hnext]
  fun_cases afterSlash rest with
  | case1 line =>
    have hline := begins_afterLine h.tail.tail
    simp only [List.head?_cons, slice?_of_begins h.tail.tail, Option.bind_eq_bind,
      Option.bind_some]
    cases hindex : line.findIdx? (· == '\n') with
    | none => exact ⟨_, rfl, by simpa [hindex] using hline⟩
    | some i => exact ⟨_, rfl, by simpa [hindex] using hline⟩
  | case2 => exact leads_afterBlockComment h.tail.tail
  | case3 _ hline hblock =>
    cases rest with
    | nil => exact ⟨_, rfl, h.tail⟩
    | cons d rest =>
      have hd : d ≠ '/' ∧ d ≠ '*' :=
        ⟨fun heq => hline rest (heq ▸ rfl), fun heq => hblock rest (heq ▸ rfl)⟩
      simpa [hd.1, hd.2] using ⟨_, rfl, h.tail⟩

/-- Nothing is left of a literal at the end of the text. -/
theorem afterQuoted_of_length_le (quote : Char) (h : source.length ≤ index) :
    afterQuoted source quote index = source.length := by
  have hnone : source[index]? = none := List.getElem?_eq_none h
  rw [afterQuoted]
  split
  · rfl
  · next hc => rw [hnone] at hc; cases hc

theorem afterQuoted_of_begins (quote : Char) {c : Char} (h : Begins source index (c :: rest)) :
    afterQuoted source quote index =
      if c = quote then index + 1
      else if c = '\\' then afterQuoted source quote (index + 2)
      else afterQuoted source quote (index + 1) := by
  have hc : source[index]? = some c := h.getElem?_eq
  rw [afterQuoted]
  split
  · next hnone => rw [hc] at hnone; cases hnone
  · next d hd =>
    rw [hc] at hd
    cases hd
    rfl

theorem begins_afterQuoted (quote : Char) (h : Begins source index text) :
    Begins source (afterQuoted source quote index) (afterQuote quote text) := by
  fun_induction afterQuote quote text generalizing index with
  | case1 =>
    rw [afterQuoted_of_length_le quote (Nat.le_of_eq h.eq_length.symm)]
    exact begins_nil source
  | case2 c =>
    -- whatever the last character is, the literal reaches to the end
    have hlength := h.tail.eq_length
    rw [afterQuoted_of_begins quote h, afterQuoted_of_length_le quote (by omega),
      afterQuoted_of_length_le quote (Nat.le_of_eq hlength.symm), hlength]
    simpa using begins_nil source
  | case3 rest =>
    rw [afterQuoted_of_begins quote h, if_pos rfl]
    exact h.tail
  | case4 d rest hquote ih =>
    rw [afterQuoted_of_begins quote h, if_neg hquote, if_pos rfl]
    exact ih h.tail.tail
  | case5 c d rest hquote hescape ih =>
    rw [afterQuoted_of_begins quote h, if_neg hquote, if_neg hescape]
    exact ih h.tail

theorem leads_afterLiteral {quote : Char} (h : Begins source index (quote :: rest)) :
    Leads source (afterLiteral? source index) (afterQuote quote rest) := by
  have hquote : source[index]? = some quote := h.getElem?_eq
  rw [afterLiteral?, character?, hquote]
  exact ⟨_, rfl, begins_afterQuoted quote h.tail⟩

/-! A comment or a literal is at least one character long, so loops end. -/

theorem le_afterBlanks (source : List Char) (index : Nat) : index ≤ afterBlanks source index := by
  fun_induction afterBlanks source index with
  | case1 => exact Nat.le_refl _
  | case2 index c hc _ ih => exact Nat.le_of_succ_le ih
  | case3 => exact Nat.le_refl _

/-- What is shorter begins later. -/
theorem lt_of_leads {c : Char} {after : List Char} {next : Nat}
    (h : Begins source index (c :: rest)) (hafter : after.length ≤ rest.length)
    (hleads : Leads source (some next) after) : index < next := by
  obtain ⟨found, hfound, hbegins⟩ := hleads
  cases hfound
  have hlength := h.length_eq
  have hlength' := hbegins.length_eq
  rw [List.length_cons] at hlength
  omega

theorem lt_of_afterComment?_eq_some {next : Nat} (hslash : source[index]? = some '/')
    (h : afterComment? source index = some next) : index < next := by
  have hbegins := begins_of_getElem?_eq_some hslash
  exact lt_of_leads hbegins (length_afterSlash_le _) (h ▸ leads_afterComment hbegins)

theorem lt_of_afterLiteral?_eq_some {next : Nat} {quote : Char}
    (hquote : source[index]? = some quote) (h : afterLiteral? source index = some next) :
    index < next := by
  have hbegins := begins_of_getElem?_eq_some hquote
  exact lt_of_leads hbegins (length_afterQuote_le quote _) (h ▸ leads_afterLiteral hbegins)

end

/-! ## Gaps, brackets and initial values -/

/-- The index after the blanks and comments at an index. -/
def afterGaps? (index : Nat) : Option Nat :=
  match _ : source[afterBlanks source index]? with
  | some '/' =>
    match _ : afterComment? source (afterBlanks source index) with
    | some next => afterGaps? next
    | none => none
  | _ => some (afterBlanks source index)
termination_by source.length - index
decreasing_by
  have hle := le_afterBlanks source index
  have hlt := (List.getElem?_eq_some_iff.1 ‹source[_]? = _›).1
  have hnext := lt_of_afterComment?_eq_some ‹source[_]? = _› ‹_›
  omega

/-- The index after the bracket at which none is open any more, `depth` being
open at an index. -/
def afterBrackets? (opening closing : Char) (depth : Int) (index : Nat) : Option Nat :=
  match _ : source[index]? with
  | none => some source.length
  | some c =>
    if _ : c = '/' then
      match _ : afterComment? source index with
      | some next =>
        if depth ≤ 0 then some next else afterBrackets? opening closing depth next
      | none => none
    else if isQuote c then
      match _ : afterLiteral? source index with
      | some next =>
        if depth ≤ 0 then some next else afterBrackets? opening closing depth next
      | none => none
    else
      let depth := if c = opening then depth + 1 else if c = closing then depth - 1 else depth
      if depth ≤ 0 then some (index + 1) else afterBrackets? opening closing depth (index + 1)
termination_by source.length - index
decreasing_by
  · subst ‹_ = '/'›
    have hlt := (List.getElem?_eq_some_iff.1 ‹source[_]? = _›).1
    have hnext := lt_of_afterComment?_eq_some ‹source[_]? = _› ‹_›
    omega
  · have hlt := (List.getElem?_eq_some_iff.1 ‹source[_]? = _›).1
    have hnext := lt_of_afterLiteral?_eq_some ‹source[_]? = _› ‹_›
    omega
  · have hlt := (List.getElem?_eq_some_iff.1 ‹source[_]? = _›).1
    omega

/-- Where an initial value ends. -/
inductive InitializerStop where
  /-- At a comma, which stands at the index. -/
  | comma (index : Nat)
  /-- At a semicolon, which stands before the index. -/
  | semicolon (next : Nat)
  | endOfText

/-- Where an initial value ends of which some brackets are open at an index. -/
def initializerStop? (o : OpenBrackets) (index : Nat) : Option InitializerStop :=
  match _ : source[index]? with
  | none => some .endOfText
  | some c =>
    if isQuote c then
      match _ : afterLiteral? source index with
      | some next => initializerStop? o next
      | none => none
    else if _ : c = '/' ∧ (source[index + 1]? = some '/' ∨ source[index + 1]? = some '*') then
      match _ : afterComment? source index with
      | some next => initializerStop? o next
      | none => none
    else if c = ';' ∧ o.isOutside then some (.semicolon (index + 1))
    else if c = ',' ∧ o.isOutside ∧ o.angle = 0 then some (.comma index)
    else initializerStop? (o.after c) (index + 1)
termination_by source.length - index
decreasing_by
  · have hlt := (List.getElem?_eq_some_iff.1 ‹source[_]? = _›).1
    have hnext := lt_of_afterLiteral?_eq_some ‹source[_]? = _› ‹_›
    omega
  · obtain ⟨rfl, _⟩ := ‹_ = '/' ∧ _›
    have hlt := (List.getElem?_eq_some_iff.1 ‹source[index]? = _›).1
    have hnext := lt_of_afterComment?_eq_some ‹source[index]? = _› ‹_›
    omega
  · have hlt := (List.getElem?_eq_some_iff.1 ‹source[_]? = _›).1
    omega

/-- Whether an initial value is found to end where it does. -/
def InitializerStop.Matches : InitializerStop → InitializerEnd → Prop
  | .comma index, .comma text => Begins source index text
  | .semicolon next, .semicolon rest => Begins source next rest
  | .endOfText, .endOfText => True
  | _, _ => False

section

variable {source text rest : List Char} {index : Nat} {c : Char}

theorem skipGaps_skipBlanks (text : List Char) : skipGaps (skipBlanks text) = skipGaps text := by
  rw [skipBlanks, ← skipGaps_blanks_append (allBlank_takeWhile text),
    List.takeWhile_append_dropWhile]

theorem leads_afterGaps (h : Begins source index text) :
    Leads source (afterGaps? source index) (skipGaps text) := by
  fun_induction afterGaps? source index generalizing text with
  | case1 index hslash next hnext ih =>
    have hstart := begins_afterBlanks h
    obtain ⟨rest, hrest⟩ : ∃ rest, skipBlanks text = '/' :: rest :=
      List.head?_eq_some_iff.1 (hstart.getElem?_eq.symm.trans hslash)
    rw [hrest] at hstart
    obtain ⟨found, hfound, hafter⟩ := leads_afterComment hstart
    rw [hnext] at hfound
    cases hfound
    rw [← skipGaps_skipBlanks, hrest, skipGaps_slash]
    exact ih hafter
  | case2 index hslash hnone =>
    obtain ⟨found, hfound, -⟩ := leads_afterComment (begins_of_getElem?_eq_some hslash)
    rw [hnone] at hfound
    cases hfound
  | case3 index hnot =>
    have hstart := begins_afterBlanks h
    have hhead := List.head?_dropWhile_not isBlank text
    rw [← skipGaps_skipBlanks]
    cases hblanks : skipBlanks text with
    | nil => exact ⟨_, rfl, by rw [skipGaps_nil, ← hblanks]; exact hstart⟩
    | cons c rest =>
      have hblank : isBlank c = false := by
        rw [← skipBlanks, hblanks] at hhead
        simpa using hhead
      have hslash : c ≠ '/' := by
        rintro rfl
        exact hnot (hstart.getElem?_eq.trans (congrArg List.head? hblanks))
      exact ⟨_, rfl, by rw [skipGaps_cons_of_code hblank hslash, ← hblanks]; exact hstart⟩

/-- Passing over brackets from a character on. -/
theorem afterBrackets?_of_begins (opening closing : Char) (depth : Int)
    (h : Begins source index (c :: rest)) :
    afterBrackets? source opening closing depth index =
      if c = '/' then (afterComment? source index).bind fun next =>
        if depth ≤ 0 then some next else afterBrackets? source opening closing depth next
      else if isQuote c then (afterLiteral? source index).bind fun next =>
        if depth ≤ 0 then some next else afterBrackets? source opening closing depth next
      else
        let depth := if c = opening then depth + 1 else if c = closing then depth - 1 else depth
        if depth ≤ 0 then some (index + 1)
        else afterBrackets? source opening closing depth (index + 1) := by
  have hc : source[index]? = some c := h.getElem?_eq
  rw [afterBrackets?]
  split
  · next hnone => rw [hc] at hnone; cases hnone
  next d hd =>
  rw [hc] at hd
  cases hd
  split
  · split <;> simp_all
  split
  · split <;> simp_all
  · rfl

/-- With `depth` brackets open around one that is open. -/
theorem leads_afterBrackets_succ (opening closing : Char) (depth : Nat)
    (h : Begins source index text) :
    Leads source (afterBrackets? source opening closing (depth + 1) index)
      (afterBracket opening closing depth text) := by
  have hopen (n : Nat) : ¬ (n : Int) + 1 ≤ 0 := by omega
  fun_induction afterBracket opening closing depth text generalizing index with
  | case1 depth =>
    have hnone : source[index]? = none := h.getElem?_eq
    rw [afterBrackets?]
    split
    · exact ⟨_, rfl, begins_nil source⟩
    · next hc => rw [hnone] at hc; cases hc
  | case2 depth rest ih =>
    obtain ⟨next, hnext, hafter⟩ := leads_afterComment h
    rw [afterBrackets?_of_begins opening closing _ h, if_pos rfl, hnext, Option.bind_some,
      if_neg (hopen depth)]
    exact ih hafter
  | case3 depth c rest hslash hquote ih =>
    obtain ⟨next, hnext, hafter⟩ := leads_afterLiteral h
    rw [afterBrackets?_of_begins opening closing _ h, if_neg hslash, if_pos hquote, hnext,
      Option.bind_some, if_neg (hopen depth)]
    exact ih hafter
  | case4 depth rest hslash hquote ih =>
    have hdeeper : ¬ (depth : Int) + 1 + 1 ≤ 0 := by omega
    rw [afterBrackets?_of_begins opening closing _ h, if_neg hslash, if_neg hquote]
    simpa [hdeeper] using ih h.tail
  | case5 rest hslash hquote hopening =>
    rw [afterBrackets?_of_begins opening closing _ h, if_neg hslash, if_neg hquote]
    exact ⟨index + 1, by simp [hopening], h.tail⟩
  | case6 rest outer hslash hquote hopening ih =>
    rw [afterBrackets?_of_begins opening closing _ h, if_neg hslash, if_neg hquote]
    simpa [hopening, hopen outer] using ih h.tail
  | case7 depth c rest hslash hquote hopening hclosing ih =>
    rw [afterBrackets?_of_begins opening closing _ h, if_neg hslash, if_neg hquote]
    simpa [hopening, hclosing, hopen depth] using ih h.tail

/-- From the opening bracket on. -/
theorem leads_afterBrackets {opening : Char} (closing : Char) (hslash : opening ≠ '/')
    (hquote : isQuote opening = false) (h : Begins source index (opening :: rest)) :
    Leads source (afterBrackets? source opening closing 0 index)
      (afterBracket opening closing 0 rest) := by
  rw [afterBrackets?_of_begins opening closing _ h, if_neg hslash, if_neg (by simp [hquote])]
  simpa using leads_afterBrackets_succ opening closing 0 h.tail

/-- Where an initial value ends from a character on. -/
theorem initializerStop?_of_begins (o : OpenBrackets) (h : Begins source index (c :: rest)) :
    initializerStop? source o index =
      if isQuote c then (afterLiteral? source index).bind (initializerStop? source o)
      else if c = '/' ∧ (rest.head? = some '/' ∨ rest.head? = some '*') then
        (afterComment? source index).bind (initializerStop? source o)
      else if c = ';' ∧ o.isOutside then some (.semicolon (index + 1))
      else if c = ',' ∧ o.isOutside ∧ o.angle = 0 then some (.comma index)
      else initializerStop? source (o.after c) (index + 1) := by
  have hc : source[index]? = some c := h.getElem?_eq
  have hnext : source[index + 1]? = rest.head? := h.tail.getElem?_eq
  rw [initializerStop?]
  split
  · next hnone => rw [hc] at hnone; cases hnone
  next d hd =>
  rw [hc] at hd
  cases hd
  split
  · split <;> simp_all
  simp only [hnext]
  split
  · split <;> simp_all
  · rfl

theorem matches_initializerStop (o : OpenBrackets) (h : Begins source index text) :
    ∃ stop, initializerStop? source o index = some stop ∧
      stop.Matches source (initializerEnd o text) := by
  fun_induction initializerEnd o text generalizing index with
  | case1 o =>
    have hnone : source[index]? = none := h.getElem?_eq
    rw [initializerStop?]
    split
    · exact ⟨_, rfl, trivial⟩
    · next hc => rw [hnone] at hc; cases hc
  | case2 o rest ih =>
    rw [initializerStop?_of_begins o h, if_neg (by decide)]
    split
    · obtain ⟨next, hnext, hafter⟩ := leads_afterComment h
      rw [hnext]
      exact ih hafter
    · next hlone =>
      -- a slash that opens no comment counts for nothing
      have hafter : afterSlash rest = rest :=
        afterSlash_eq_self (fun hslash => hlone ⟨rfl, .inl hslash⟩)
          fun hstar => hlone ⟨rfl, .inr hstar⟩
      have hcount : o.after '/' = o := rfl
      rw [hafter] at ih ⊢
      simpa [hcount] using ih h.tail
  | case3 o c rest hslash hquote ih =>
    obtain ⟨next, hnext, hafter⟩ := leads_afterLiteral h
    rw [initializerStop?_of_begins o h, if_pos hquote, hnext]
    exact ih hafter
  | case4 o c rest hslash hquote hend =>
    rw [initializerStop?_of_begins o h, if_neg hquote, if_neg (fun hcomment => hslash hcomment.1),
      if_pos hend]
    exact ⟨_, rfl, h.tail⟩
  | case5 o c rest hslash hquote hnot hcomma =>
    rw [initializerStop?_of_begins o h, if_neg hquote, if_neg (fun hcomment => hslash hcomment.1),
      if_neg hnot, if_pos hcomma]
    exact ⟨_, rfl, h⟩
  | case6 o c rest hslash hquote hnot hcomma ih =>
    rw [initializerStop?_of_begins o h, if_neg hquote, if_neg (fun hcomment => hslash hcomment.1),
      if_neg hnot, if_neg hcomma]
    exact ih h.tail

end

end Indexed

end JavaOutline
