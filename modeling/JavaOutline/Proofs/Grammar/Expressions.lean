import JavaOutline.Proofs.Grammar.Balance
import JavaOutline.Proofs.Layout.Loose

/-!
# JavaOutline.Proofs.Grammar.Expressions

Expressions in the bodies of methods, and how a `return` is read.  It is
one statement that begins with the keyword (`Expression.scan_return`),
except in three cases (`Expression.isReturned`):

1. a dot that begins the expression is joined to the keyword, as in
   `return .5 / x`;
2. an `=` in square brackets begins an initializer, whose end is missed
   because a bracket is closed that it did not open, as in
   `return t[i == 0 ? 1 : 2]`;
3. a colon after nothing but literals makes the keyword a label, as in
   `return "abc" :: length`.
-/

namespace JavaOutline

open Text OpenStatement

/-! ## Expressions -/

/-- The marks that may stand in an expression: a comma does so inside
brackets only. -/
def allowedInExpression (stack : List Char) (c : Char) : Bool :=
  innerMarks.contains c && c != ';' && !(stack.isEmpty && c == ',')

/-- Whether an expression can begin with a lexeme; a dot is that of a
number. -/
def Lexeme.beginsExpression : Lexeme → Bool
  | .mark c => c == '(' || c == '.'
  | _ => true

/-- Whether a lexeme is the word `default`. -/
def Lexeme.isDefault : Lexeme → Bool
  | .word w => w.text == "default"
  | _ => false

/-- An expression without braces and semicolons. -/
structure Expression where
  lexemes : List Lexeme
  nests : nests allowedInExpression [] lexemes = true
  begins : lexemes.head?.any Lexeme.beginsExpression = true
  /-- The keyword is no operand. -/
  plainly : lexemes.any Lexeme.isDefault = false

/-- What stands between two parentheses, such as arguments and the header
of a loop: anything but braces. -/
structure Enclosed where
  lexemes : List Lexeme
  nests : nests (fun _ c => innerMarks.contains c) [] lexemes = true

theorem balanced_of_nests {allowed : List Char → Char → Bool} {ls : List Lexeme}
    (h : nests allowed [] ls = true) (hallowed : ∀ stack c, allowed stack c = true → isMark c = true) :
    Balanced ls := by
  refine ⟨passes_of_nests h, fun c hc => ?_⟩
  obtain ⟨stack, hstack⟩ := nests_allowed (Nests.of_nests h) hc
  exact hallowed stack c hstack

theorem isMark_of_innerMarks {c : Char} (h : innerMarks.contains c = true) : isMark c = true := by
  have hall : ∀ d ∈ innerMarks, isMark d = true := by decide
  exact hall c (List.contains_iff_mem.1 h)

theorem innerMarks_of_allowed {stack : List Char} {c : Char}
    (h : allowedInExpression stack c = true) : c ∈ innerMarks := by
  simp only [allowedInExpression, Bool.and_eq_true] at h
  exact List.contains_iff_mem.1 h.1.1

theorem Expression.balanced (e : Expression) : Balanced e.lexemes :=
  balanced_of_nests e.nests fun _ _ h =>
    isMark_of_innerMarks (List.contains_iff_mem.2 (innerMarks_of_allowed h))

theorem Enclosed.balanced (e : Enclosed) : Balanced e.lexemes :=
  balanced_of_nests e.nests fun _ _ h => isMark_of_innerMarks h

theorem Enclosed.readInside (e : Enclosed) : ReadInside [] e.lexemes :=
  (Nests.of_nests e.nests).readInside fun _ _ h => List.contains_iff_mem.1 h

/-! ## After an equals sign -/

/-- An expression after `=` ends at the semicolon after it. -/
theorem Nests.initializerEnd_semicolon {ls more : List Lexeme}
    (h : Nests allowedInExpression [] ls) {text rest : List Char}
    (hlaid : Laid (ls ++ .mark ';' :: more) text rest) :
    ∃ after, Laid more after rest ∧ initializerEnd .none text = .semicolon after := by
  obtain ⟨mid, hexpression, run, after, hrun, rfl, _, hafter⟩ := hlaid.append
  obtain ⟨angle, hend, _⟩ := h.initializerEnd_eq (by decide) (by decide) (by simp) 0 hexpression
  refine ⟨after, hafter, ?_⟩
  have hoff : OpenBrackets.none = .ofStack [] 0 := rfl
  rw [hoff, hend, initializerEnd_blanks_append _ hrun, Lexeme.chars, List.singleton_append,
    initializerEnd, if_neg (by decide), if_neg (by decide), if_pos]
  exact ⟨rfl, rfl⟩

/-! ## Returning -/

/-- Whether the lexemes after `return` leave it one statement that goes on
to the semicolon: a first `=` outside parentheses stands outside brackets,
and before a first colon outside parentheses another token is `begun`. -/
def isPassedOver (begun : Bool) (stack : List Char) : List Lexeme → Bool
  | [] => true
  | .word _ :: ls => isPassedOver true stack ls
  | .literal _ :: ls => isPassedOver begun stack ls
  | .mark c :: ls =>
    if stack.contains ')' then isPassedOver true (awaited stack c) ls
    else if c = '=' then stack.isEmpty
    else if c = ':' then begun && isPassedOver true stack ls
    else isPassedOver (begun || c != '/') (awaited stack c) ls

/-- Whether an expression can be returned without being taken for something
else. -/
def Expression.isReturned (e : Expression) : Bool :=
  !e.lexemes.head?.any Lexeme.isDot && isPassedOver false [] e.lexemes

namespace OpenStatement

variable {s t : OpenStatement}

/-- More tokens after the first one do not change it. -/
theorem Grows.head?_eq {token : String} (h : Grows s t) (hs : s.tokens.head? = some token) :
    t.tokens.head? = some token := by
  obtain ⟨more, hmore⟩ := h.tokens
  rw [← hmore, List.head?_append, hs]
  rfl

/-- A colon ends no label after two tokens that do not begin with a keyword
of labels. -/
theorem endsInLabel_of_two_le (hhead : s.tokens.head? = some "return")
    (hcurrent : s.current ≠ "default") (hsize : 2 ≤ s.size) : s.endsInLabel = false := by
  have hlength : s.tokens.length + (if s.current = "" then 0 else 1) ≠ 1 := by
    rw [size] at hsize
    omega
  simp only [endsInLabel, hhead]
  simp [hcurrent, hlength]

/-- A statement that has begun with `return`; `stack` holds the closing
brackets that are awaited. -/
structure Returning (begun : Bool) (stack : List Char) (s : OpenStatement) (text : List Char) :
    Prop where
  loose : Loose s text
  first : s.tokens.head? = some "return"
  parentheses : s.parentheses = stack.count ')'
  size : begun = true ∨ stack ≠ [] → 2 ≤ s.size

namespace Returning

variable {begun begun' : Bool} {stack stack' : List Char} {s t : OpenStatement} {l : Lexeme}
  {ls : List Lexeme} {text mid rest : List Char}

theorem tokens_ne_nil (h : Returning begun stack s text) : s.tokens ≠ [] := by
  intro hnil
  have hfirst := h.first
  rw [hnil] at hfirst
  cases hfirst

/-- Where no parenthesis is awaited none is open. -/
theorem parentheses_eq_zero (h : Returning begun stack s text) (hstack : ')' ∉ stack) :
    s.parentheses = 0 := by
  rw [h.parentheses, List.count_eq_zero_of_not_mem hstack]
  rfl

theorem grow (h : Returning begun stack s text) (ht : Loose t mid) (hgrows : Grows s t)
    (hparentheses : t.parentheses = stack'.count ')')
    (hsize : begun' = true ∨ stack' ≠ [] → 2 ≤ t.size) : Returning begun' stack' t mid :=
  ⟨ht, hgrows.head?_eq h.first, hparentheses, hsize⟩

/-- A lexeme that is no parenthesis and ends nothing is read. -/
theorem read_lexeme {x : Lexeme} (h : Returning begun stack s text)
    (hword : ∀ w, x = .word w → w.text ≠ "default")
    (hmark : ∀ c, x = .mark c → c ∈ ['<', '>', '.', '?', '[', ']', ',', '/'] ∨
      (c ∈ ['=', ':', ';'] ∧ ')' ∈ stack))
    (hcount : stack'.count ')' = stack.count ')')
    (hbegun : x.counts = false → begun' = true ∨ stack' ≠ [] → begun = true ∨ stack ≠ [])
    (hlaid : Laid (x :: l :: ls) text rest) : ∃ t mid, Returning begun' stack' t mid ∧
      Laid (l :: ls) mid rest ∧ s.read text = t.read mid := by
  have hopen : ')' ∈ stack → 0 < s.parentheses := by
    intro hin
    have hpositive := List.count_pos_iff.2 hin
    rw [h.parentheses]
    omega
  obtain ⟨t, mid, ht, hgrows, hparentheses, hsize, hmid, hread⟩ := h.loose.read_lexeme
    (fun w hw _ => hword w hw) (fun c hc => (hmark c hc).imp_right fun hin => ⟨hin.1, hopen hin.2⟩)
    hlaid
  refine ⟨t, mid, h.grow ht hgrows ?_ fun hnested => ?_, hmid, hread⟩
  · rw [hparentheses, h.parentheses, hcount]
  · cases hcounts : x.counts with
    | true => exact hsize h.tokens_ne_nil hcounts
    | false => exact Nat.le_trans (h.size (hbegun hcounts hnested)) hgrows.size

theorem read_opening (h : Returning begun stack s text)
    (hlaid : Laid (.mark '(' :: ls) text rest) : ∃ t mid,
      Returning true (')' :: stack) t mid ∧ Laid ls mid rest ∧ s.read text = t.read mid := by
  obtain ⟨t, mid, ht, hgrows, hparentheses, htokens, hmid, hread⟩ := h.loose.read_opening hlaid
  have hended : s.endToken.tokens ≠ [] := by
    intro hnil
    have hfirst := (Grows.endToken h.loose.plainly).head?_eq h.first
    rw [hnil] at hfirst
    cases hfirst
  have hlength := List.length_pos_iff.2 hended
  refine ⟨t, mid, h.grow ht hgrows ?_ fun _ => ?_, hmid, hread⟩
  · rw [hparentheses, h.parentheses]
    simp
  · rw [OpenStatement.size, htokens, List.length_append]
    simp only [List.length_cons, List.length_nil]
    omega

theorem read_closing (h : Returning begun (')' :: stack) s text)
    (hlaid : Laid (.mark ')' :: l :: ls) text rest) : ∃ t mid,
      Returning true stack t mid ∧ Laid (l :: ls) mid rest ∧ s.read text = t.read mid := by
  have hfirm : Firm s.tokens := by
    left
    rw [h.first]
    rfl
  obtain ⟨t, mid, ht, hgrows, hparentheses, _, hmid, hread⟩ := h.loose.read_closing hfirm hlaid
  refine ⟨t, mid, h.grow ht hgrows ?_ fun _ => ?_, hmid, hread⟩
  · have hcount : (')' :: stack).count ')' = stack.count ')' + 1 := by simp
    rw [hparentheses, h.parentheses, hcount]
    omega
  · exact Nat.le_trans (h.size (.inr (by simp))) hgrows.size

/-- A colon after another token goes on with the statement. -/
theorem read_colon (h : Returning true stack s text) (hstack : ')' ∉ stack)
    (hlaid : Laid (.mark ':' :: ls) text rest) : ∃ t mid,
      Returning true stack t mid ∧ Laid ls mid rest ∧ s.read text = t.read mid := by
  have hended := Grows.endToken h.loose.plainly
  have hcurrent := (h.loose.apart (h.parentheses_eq_zero hstack)).1
  have htwo := h.size (.inl rfl)
  have hlabel := endsInLabel_of_two_le h.first hcurrent htwo
  have hlabel' := endsInLabel_of_two_le (hended.head?_eq h.first) (by simp)
    (Nat.le_trans htwo hended.size)
  obtain ⟨t, mid, ht, hgrows, hparentheses, hmid, hread⟩ :=
    h.loose.read_colon hlabel hlabel' hlaid
  exact ⟨t, mid, h.grow ht hgrows (hparentheses.trans h.parentheses)
    (fun _ => Nat.le_trans htwo hgrows.size), hmid, hread⟩

/-- A mark is read, unless it is an equals sign outside parentheses. -/
theorem read_mark {c : Char} {others : List Lexeme} (h : Returning begun stack s text)
    (hnests : Nests allowedInExpression stack (.mark c :: others))
    (hpassed : isPassedOver begun stack (.mark c :: others) = true)
    (hequals : c = '=' → ')' ∈ stack) (hlaid : Laid (.mark c :: l :: ls) text rest) :
    ∃ begun', isPassedOver begun' (awaited stack c) others = true ∧ ∃ t mid,
      Returning begun' (awaited stack c) t mid ∧ Laid (l :: ls) mid rest ∧
        s.read text = t.read mid := by
  obtain ⟨hallowed, _, hkind⟩ := hnests.mark_cases
  have hinner := innerMarks_of_allowed hallowed
  rw [isPassedOver] at hpassed
  rcases hkind with ⟨rfl, hawaited⟩ | ⟨rfl, hawaited⟩ | ⟨hleft, hright, hcount⟩
  · refine ⟨true, by simpa using hpassed, ?_⟩
    rw [hawaited]
    exact h.read_opening hlaid
  · refine ⟨true, by simpa using hpassed, ?_⟩
    rw [hawaited] at h
    exact h.read_closing hlaid
  have hkinds : ∀ d ∈ innerMarks, d ≠ '(' → d ≠ ')' →
      d ∈ ['<', '>', '.', '?', '[', ']', ',', '/'] ∨ d ∈ ['=', ':', ';'] := by decide
  have hsemicolon : c ≠ ';' := by
    rintro rfl
    exact absurd hallowed (by simp [allowedInExpression])
  by_cases hin : ')' ∈ stack
  · -- Inside parentheses every mark goes on with the statement.
    refine ⟨true, by simpa [hin] using hpassed, h.read_lexeme (by simp) ?_ hcount ?_ hlaid⟩
    · rintro d hd
      cases hd
      exact (hkinds c hinner hleft hright).imp_right fun hends => ⟨hends, hin⟩
    · exact fun _ _ => .inr (List.ne_nil_of_mem hin)
  · have hnot : c ≠ '=' := fun hc => hin (hequals hc)
    by_cases hcolon : c = ':'
    · subst hcolon
      have hsame : awaited stack ':' = stack := rfl
      rw [hsame] at hpassed ⊢
      simp only [List.contains_eq_mem, hin, decide_false] at hpassed
      simp at hpassed
      obtain ⟨rfl, hothers⟩ := hpassed
      exact ⟨true, hothers, h.read_colon hin hlaid⟩
    · have hjoins : c ∈ ['<', '>', '.', '?', '[', ']', ',', '/'] := by
        rcases hkinds c hinner hleft hright with hjoins | hends
        · exact hjoins
        · simp [hnot, hcolon, hsemicolon] at hends
      refine ⟨begun || c != '/', by simpa [hin, hnot, hcolon] using hpassed,
        h.read_lexeme (by simp) (by rintro d hd; cases hd; exact .inl hjoins) hcount ?_ hlaid⟩
      -- Only a comma and a slash begin no token.
      intro hcounts hnested
      have hrest : ∀ d ∈ ['<', '>', '.', '?', '[', ']', ',', '/'],
          (Lexeme.mark d).counts = false → d = ',' ∨ d = '/' := by decide
      rcases hrest c hjoins hcounts with rfl | rfl
      · right
        rintro rfl
        exact absurd hallowed (by decide)
      · have hsame : awaited stack '/' = stack := rfl
        rw [hsame] at hnested
        simpa using hnested

/-- After an equals sign the statement goes on to the end of an
initializer. -/
theorem read_equals (h : Returning begun [] s text) (hls : Nests allowedInExpression [] ls)
    {more : List Lexeme} (hlaid : Laid (.mark '=' :: (ls ++ .mark ';' :: more)) text rest) :
    ∃ tokens after, tokens.head? = some "return" ∧ Laid more after rest ∧
      s.read text = some (⟨tokens, .semicolon⟩, after) := by
  have hzero : s.endToken.parentheses = 0 := by
    rw [parentheses_endToken, h.parentheses_eq_zero (by simp)]
  obtain ⟨mid, hmid, hread⟩ := (h.loose.stands hlaid (by decide)).read_equals hzero hlaid
  obtain ⟨after, hafter, hend⟩ := hls.initializerEnd_semicolon hmid
  rw [hend] at hread
  exact ⟨_, after, (Grows.endToken h.loose.plainly).head?_eq h.first, hafter, hread⟩

theorem read_semicolon (h : Returning begun [] s text) (hlaid : Laid (.mark ';' :: ls) text rest) :
    ∃ tokens after, tokens.head? = some "return" ∧ Laid ls after rest ∧
      s.read text = some (⟨tokens, .semicolon⟩, after) := by
  have hzero : s.endToken.parentheses = 0 := by
    rw [parentheses_endToken, h.parentheses_eq_zero (by simp)]
  obtain ⟨after, hafter, hread⟩ := (h.loose.stands hlaid (by decide)).read_semicolon hzero hlaid
  exact ⟨_, after, (Grows.endToken h.loose.plainly).head?_eq h.first, hafter, hread⟩

end Returning

end OpenStatement

/-- An expression is passed over up to the semicolon after it. -/
theorem Nests.read_returned {begun : Bool} {stack : List Char} {ls : List Lexeme}
    (h : Nests allowedInExpression stack ls) (hpassed : isPassedOver begun stack ls = true)
    (hplain : ls.any Lexeme.isDefault = false) {s : OpenStatement} {more : List Lexeme}
    {text rest : List Char} (hs : Returning begun stack s text)
    (hlaid : Laid (ls ++ .mark ';' :: more) text rest) : ∃ tokens after,
      tokens.head? = some "return" ∧ Laid more after rest ∧
        s.read text = some (⟨tokens, .semicolon⟩, after) := by
  induction ls generalizing begun stack s text with
  | nil =>
      cases h
      exact hs.read_semicolon hlaid
  | cons x ls ih =>
      rw [List.any_cons, Bool.or_eq_false_iff] at hplain
      obtain ⟨hx, hothers⟩ := hplain
      obtain ⟨first, others, hsplit⟩ :=
        List.exists_cons_of_ne_nil (l := ls ++ .mark ';' :: more) (by simp)
      -- Once the first lexeme has been read the others are.
      have hnext : ∀ {begun' : Bool} {stack' : List Char},
          Nests allowedInExpression stack' ls → isPassedOver begun' stack' ls = true →
          (∃ t mid, Returning begun' stack' t mid ∧ Laid (first :: others) mid rest ∧
            s.read text = t.read mid) →
          ∃ tokens after, tokens.head? = some "return" ∧ Laid more after rest ∧
            s.read text = some (⟨tokens, .semicolon⟩, after) := by
        rintro begun' stack' hls hpassed' ⟨t, mid, ht, hmid, hread⟩
        rw [← hsplit] at hmid
        obtain ⟨tokens, after, hfirst, hafter, hend⟩ := ih hls hpassed' hothers ht hmid
        exact ⟨tokens, after, hfirst, hafter, hread.trans hend⟩
      have hlaid' := hlaid
      rw [List.cons_append, hsplit] at hlaid'
      cases x with
      | word w =>
          have hword : ∀ v, Lexeme.word w = .word v → v.text ≠ "default" := by
            rintro v hv
            cases hv
            simpa [Lexeme.isDefault] using hx
          cases h with
          | word _ hls =>
              exact hnext hls hpassed (hs.read_lexeme hword (by simp) rfl (by simp [Lexeme.counts])
                hlaid')
      | literal q =>
          cases h with
          | literal _ hls =>
              exact hnext hls hpassed (hs.read_lexeme (by simp) (by simp) rfl (fun _ h => h) hlaid')
      | mark c =>
          obtain ⟨hallowed, hls, _⟩ := h.mark_cases
          by_cases hinitializer : c = '=' ∧ ')' ∉ stack
          · obtain ⟨rfl, hout⟩ := hinitializer
            rw [isPassedOver] at hpassed
            have hempty : stack = [] := by simpa [hout] using hpassed
            subst hempty
            exact hs.read_equals hls hlaid
          · have hequals : c = '=' → ')' ∈ stack := fun hc =>
              Decidable.not_not.1 fun hout => hinitializer ⟨hc, hout⟩
            obtain ⟨begun', hpassed', ht⟩ := hs.read_mark h hpassed hequals hlaid'
            exact hnext hls hpassed' ht

/-- Before an expression that does not begin with a dot a token has
ended. -/
theorem OpenStatement.Stands.read_begun {s k : OpenStatement} {l : Lexeme} {ls : List Lexeme}
    {text rest : List Char} (h : Stands s k text) (hbegins : l.beginsExpression = true)
    (hdot : l.isDot = false) (hlaid : Laid (l :: ls) text rest) :
    ∃ text', Laid (l :: ls) text' rest ∧ s.read text = k.read text' := by
  -- A word or a literal begins with a character before which a blank stands or no token.
  have hfirst : ∀ {c : Char} {cs : List Char}, l.chars = c :: cs →
      isPlain c = true ∨ isQuote c = true → mayJoin c = false → isBlank c = false → c ≠ '/' →
        ∃ text', Laid (l :: ls) text' rest ∧ s.read text = k.read text' := by
    intro c cs hchars hkind hjoin hblank hslash
    obtain ⟨run, after, hrun, rfl, hfits, hls⟩ := hlaid
    have htight : Laid (l :: ls) (l.chars ++ after) rest :=
      ⟨[], after, by simp [AllBlank], rfl, hfits, hls⟩
    refine ⟨l.chars ++ after, htight, ?_⟩
    rw [hchars, List.cons_append] at h ⊢
    rcases Loose.read_lead hrun h.plainly hjoin hblank hslash (cs ++ after) with rfl | hlead
    · rcases h.apart with hempty | hapart
      · rw [List.nil_append, ← h.ended, endToken_of_current_eq_empty hempty]
      · obtain ⟨hnot, hnot'⟩ := hapart c rfl
        rcases hkind with hplain | hquote
        · rw [hnot] at hplain
          cases hplain
        · rw [hnot'] at hquote
          cases hquote
    · rw [hlead, h.ended]
  cases l with
  | word w =>
      obtain ⟨c, cs, hw, hplain, _⟩ := w.exists_cons
      obtain ⟨hblank, _, hslash, _⟩ := isPlain_iff.1 hplain
      exact hfirst hw (.inl hplain) (not_mayJoin_of_isPlain hplain) hblank hslash
  | literal q =>
      have hjoin : mayJoin q.quote = false := by
        rcases isQuote_iff.1 q.isQuote with hq | hq <;> rw [hq] <;> decide
      exact hfirst rfl (.inr q.isQuote) hjoin (isBlank_eq_false_of_isQuote q.isQuote)
        (ne_of_isQuote q.isQuote (by decide))
  | mark c =>
      have hopen : c = '(' := by
        simp only [Lexeme.isDot] at hdot
        simpa [Lexeme.beginsExpression, hdot] using hbegins
      subst hopen
      obtain ⟨after, hafter, hread⟩ := h.read_stop hlaid (by decide)
      have hfits : (Lexeme.mark '(').Fits after := ⟨by decide, fun h => absurd h (by decide)⟩
      exact ⟨'(' :: after, ⟨[], after, by simp [AllBlank], rfl, hfits, hafter⟩, hread⟩

/-- The word `return`. -/
def returnWord : Word := ⟨"return", by decide⟩

/-- **What is returned is passed over**: `return` with an expression that
can be returned is one statement, which begins with the keyword. -/
theorem Expression.scan_return (e : Expression) (hreturned : e.isReturned = true)
    {more : List Lexeme} {text rest : List Char}
    (hlaid : Laid (.word returnWord :: (e.lexemes ++ .mark ';' :: more)) text rest) :
    ∃ tokens after, tokens.head? = some "return" ∧ Laid more after rest ∧
      scan text = some (⟨tokens, .semicolon⟩, after) := by
  obtain ⟨text', hlaid', hscan⟩ := scan_eq_read (by simp) hlaid
  obtain ⟨mid, hfits, hmid, hword⟩ := (stands_start text').read_word hlaid'
  have hstands := returnWord.stands_extend (k := start) rfl hfits
  have hnests := Nests.of_nests e.nests
  have hplain := e.plainly
  have hbegins := e.begins
  simp only [isReturned, Bool.and_eq_true, Bool.not_eq_true'] at hreturned
  obtain ⟨hdot, hpassed⟩ := hreturned
  generalize e.lexemes = ls at hnests hplain hbegins hdot hpassed hmid
  cases ls with
  | nil => cases hbegins
  | cons l ls =>
      obtain ⟨begun, hbegun, hread⟩ := hstands.read_begun hbegins hdot hmid
      have hreturning : Returning false [] (start.take returnWord.text) begun :=
        ⟨.of_current_eq_empty rfl begun, rfl, rfl, by simp⟩
      obtain ⟨tokens, after, hfirst, hafter, hend⟩ :=
        hnests.read_returned hpassed hplain hreturning hbegun
      exact ⟨tokens, after, hfirst, hafter, hscan.trans (hword.trans (hread.trans hend))⟩

end JavaOutline
