import JavaOutline.Proofs.Grammar.Units
import JavaOutline.Proofs.Layout.Loose
import JavaOutline.Proofs.Lexical.Closed
import JavaOutline.Proofs.Restoring

/-!
# JavaOutline.Proofs.Grammar.EnumConstants

The constants of an enum as they may be written: a constant may have
arguments or a body.  Both are dropped while the list of names goes on with
the token, so the type is what it would be with the names alone
(`EnumConstants.read_eq_names`).

* **arguments** — whatever stands between the parentheses, as long as no
  other parenthesis does, the closing one leaves the names
  (`InArguments.closeParenthesis_eq`);
* **bodies** — a block after a list of names is passed over
  (`Names.read_body`).

A constant with both arguments and a body is taken for a constructor.
-/

namespace JavaOutline

open Text OpenStatement

/-! ## Constants -/

/-- What may stand between the parentheses after a constant: brackets of
other kinds are closed in order. -/
structure FlatArguments where
  lexemes : List Lexeme
  nests : nests (fun _ c => c != '(' && c != ')') [] lexemes = true

/-- The text of the body of a class: its braces are closed in order. -/
structure ClassBody where
  text : List Char
  closed : Closed [('\x7b', '\x7d')] text

/-- The body of a class is passed over. -/
theorem ClassBody.afterBracket_eq (b : ClassBody) (depth : Nat) (rest : List Char) :
    afterBracket '\x7b' '\x7d' depth (b.text ++ '\x7d' :: rest) =
      afterBracket '\x7b' '\x7d' depth ('\x7d' :: rest) :=
  b.closed.afterBracket_append (k := ('\x7b', '\x7d')) (by simp) (by simp [bracketKinds]) depth
    (by decide) (by decide) rest

/-- What is written after the name of a constant. -/
inductive Decoration where
  | none
  | arguments (arguments : FlatArguments)
  | body (body : ClassBody)

/-- Whether a text begins with what is written after the name of a constant. -/
def Decoration.LaidOut : Decoration → List Char → List Char → Prop
  | none, text, rest => Laid [] text rest
  | arguments a, text, rest => Laid (.mark '(' :: (a.lexemes ++ [.mark ')'])) text rest
  | body b, text, rest =>
    ∃ run, AllBlank run ∧ text = run ++ '\x7b' :: (b.text ++ '\x7d' :: rest)

/-- The constants of an enum, of which there is at least one. -/
structure EnumConstants where
  first : Name
  decoration : Decoration
  more : List (Name × Decoration)

namespace EnumConstants

/-- Whether a text begins with constants, with a comma before each. -/
def MoreLaidOut : List (Name × Decoration) → List Char → List Char → Prop
  | [], text, rest => Laid [] text rest
  | (n, d) :: cs, text, rest => ∃ mid last, Laid [.mark ',', .word n.toWord] text mid ∧
      d.LaidOut mid last ∧ MoreLaidOut cs last rest

/-- Whether a text begins with the constants. -/
def LaidOut (cs : EnumConstants) (text rest : List Char) : Prop :=
  ∃ mid last, Laid [.word cs.first.toWord] text mid ∧ cs.decoration.LaidOut mid last ∧
    MoreLaidOut cs.more last rest

/-- The constants by their names alone. -/
def names (cs : EnumConstants) : Constants := ⟨cs.first :: cs.more.map Prod.fst, true⟩

end EnumConstants

theorem Decoration.LaidOut.blanks_append {d : Decoration} {run text rest : List Char}
    (hrun : AllBlank run) (h : d.LaidOut text rest) : d.LaidOut (run ++ text) rest := by
  cases d with
  | none => exact Laid.blanks_append hrun h
  | arguments a => exact Laid.blanks_append hrun h
  | body b =>
      obtain ⟨run', hrun', rfl⟩ := h
      refine ⟨run ++ run', fun c hc => ?_, by simp⟩
      rcases List.mem_append.1 hc with hc | hc
      · exact hrun c hc
      · exact hrun' c hc

/-- What is written after the name of a constant is passed over. -/
theorem Decoration.LaidOut.afterBracket_eq {d : Decoration} {text rest : List Char}
    (h : d.LaidOut text rest) (depth : Nat) : afterBracket '\x7b' '\x7d' depth text =
      afterBracket '\x7b' '\x7d' depth rest := by
  cases d with
  | none => exact Laid.afterBracket_nil h depth
  | arguments a =>
      have hpass : Passes (.mark '(' :: (a.lexemes ++ [.mark ')'])) :=
        .cons (by simp) (by simp) ((passes_of_nests a.nests).append
          (.cons (by simp) (by simp) .nil))
      exact hpass depth text rest h
  | body b =>
      obtain ⟨run, hrun, rfl⟩ := h
      have hopening := afterBracket_opening (k := ('\x7b', '\x7d')) (by decide)
      have hclosing := afterBracket_closing (k := ('\x7b', '\x7d')) (by decide)
      rw [afterBracket_blanks_append _ _ _ (by decide) (by decide) hrun, hopening,
        b.afterBracket_eq, hclosing]

theorem EnumConstants.MoreLaidOut.afterBracket_eq {cs : List (Name × Decoration)}
    {text rest : List Char} (h : EnumConstants.MoreLaidOut cs text rest) (depth : Nat) :
    afterBracket '\x7b' '\x7d' depth text = afterBracket '\x7b' '\x7d' depth rest := by
  induction cs generalizing text with
  | nil => exact Laid.afterBracket_nil h depth
  | cons c cs ih =>
      obtain ⟨mid, last, hname, hdecoration, hmore⟩ := h
      have hpass : Passes [.mark ',', .word c.1.toWord] :=
        .cons (by simp) (by simp) (.cons (by simp) (by simp) .nil)
      rw [hpass depth text mid hname, hdecoration.afterBracket_eq, ih hmore]

theorem EnumConstants.LaidOut.afterBracket_eq {cs : EnumConstants} {text rest : List Char}
    (h : cs.LaidOut text rest) (depth : Nat) : afterBracket '\x7b' '\x7d' depth text =
      afterBracket '\x7b' '\x7d' depth rest := by
  obtain ⟨mid, last, hname, hdecoration, hmore⟩ := h
  have hpass : Passes [.word cs.first.toWord] := .cons (by simp) (by simp) .nil
  rw [hpass depth text mid hname, hdecoration.afterBracket_eq, hmore.afterBracket_eq]

/-- Whether a lexeme is no parenthesis. -/
def Lexeme.isNoParenthesis : Lexeme → Bool
  | .mark c => c != '(' && c != ')'
  | _ => true

theorem FlatArguments.isNoParenthesis (a : FlatArguments) :
    a.lexemes.all Lexeme.isNoParenthesis = true := by
  rw [List.all_eq_true]
  intro l hl
  cases l with
  | word w => rfl
  | literal q => rfl
  | mark c =>
      obtain ⟨_, hallowed⟩ := nests_allowed (Nests.of_nests a.nests) hl
      exact hallowed

/-! ## Arguments -/

/-- A statement inside the arguments of the last of some names: no
parenthesis has been opened after the first. -/
structure InArguments (names : String) (s : OpenStatement) : Prop where
  plainly : s.atAnnotation = false
  parentheses : s.parentheses = 1
  tokens : ∃ others, s.tokens = names :: "(" :: others ∧ "(" ∉ others
  current : '(' ∉ s.current.toList

namespace InArguments

variable {names : String} {s : OpenStatement} {l : Lexeme} {ls : List Lexeme}
  {text rest : List Char}

/-- Inside parentheses it does not matter how the text goes on. -/
theorem loose (h : InArguments names s) (text : List Char) : Loose s text :=
  ⟨h.plainly, fun hzero => by rw [h.parentheses] at hzero; cases hzero⟩

theorem endToken (h : InArguments names s) : InArguments names s.endToken := by
  by_cases hcurrent : s.current = ""
  · rwa [endToken_of_current_eq_empty hcurrent]
  · obtain ⟨others, htokens, hnot⟩ := h.tokens
    have hne : s.current ≠ "(" := by
      intro heq
      exact h.current (by rw [heq]; decide)
    rw [endToken_of_current_ne_empty hcurrent h.plainly]
    refine ⟨by simp [ atAnnotation], h.parentheses, ⟨others ++ [s.current], by simp [htokens], ?_⟩,
      by simp⟩
    simp [hnot, Ne.symm hne]

theorem extend (h : InArguments names s) {a : String} (hopen : '(' ∉ a.toList)
    (hat : a.toList.head? ≠ some '@') : InArguments names (s.extend a) := by
  refine ⟨?_, h.parentheses, h.tokens, by simp [OpenStatement.extend, h.current, hopen]⟩
  by_cases hcurrent : s.current = ""
  · simpa [ atAnnotation, OpenStatement.extend, hcurrent] using hat
  · rw [atAnnotation_extend hcurrent, h.plainly]

theorem push (h : InArguments names s) {c : Char} (hc : c ≠ '(' ∧ c ≠ '@') :
    InArguments names (s.push c) := by
  rw [push_eq_extend]
  exact h.extend (by simpa using Ne.symm hc.1) (by simpa using hc.2)

theorem countAngle (h : InArguments names s) (c : Char) : InArguments names (s.countAngle c) := by
  refine ⟨?_, ?_, ?_, ?_⟩
  · rw [ atAnnotation, current_countAngle]
    exact h.plainly
  · rw [parentheses_countAngle, h.parentheses]
  · rw [tokens_countAngle]
    exact h.tokens
  · rw [current_countAngle]
    exact h.current

theorem joint (h : InArguments names s) {c : Char} (hc : c ≠ '(' ∧ c ≠ '@') (tail : List Char) :
    InArguments names (s.joint c tail).1 ∧
      ((s.joint c tail).2 = tail ∨ (s.joint c tail).2 = skipBlanks tail) := by
  have hcounted := h.countAngle c
  rw [OpenStatement.joint]
  dsimp only
  split
  · have hended := hcounted.endToken
    exact ⟨⟨by simp [ atAnnotation], hended.parentheses, hended.tokens, by simp⟩, .inr rfl⟩
  split
  · exact ⟨hcounted.push hc, .inr rfl⟩
  split
  · exact ⟨(hcounted.push hc).endToken, .inl rfl⟩
  · exact ⟨hcounted.endToken, .inl rfl⟩

/-- A word goes on with the token or begins one. -/
theorem read_word {w : Word} (h : InArguments names s) (hlaid : Laid (.word w :: ls) text rest) :
    ∃ t after, InArguments names t ∧ Laid ls after rest ∧ s.read text = t.read after := by
  obtain ⟨run, after, hrun, rfl, _, hls⟩ := hlaid
  obtain ⟨c, cs, hw, hplain, _⟩ := w.exists_cons
  obtain ⟨hblank, _, hslash, _⟩ := isPlain_iff.1 hplain
  have htext : (Lexeme.word w).chars ++ after = c :: (cs ++ after) := by simp [Lexeme.chars, hw]
  have hopen := w.not_mem (c := '(') (by decide)
  rw [htext]
  rcases Loose.read_lead hrun h.plainly (not_mayJoin_of_isPlain hplain) hblank hslash
    (cs ++ after) with rfl | hlead
  · refine ⟨s.extend w.text, after, h.extend hopen w.head?_ne, hls, ?_⟩
    rw [List.nil_append, ← htext, Lexeme.chars, read_word_append]
  · refine ⟨s.endToken.extend w.text, after, h.endToken.extend hopen w.head?_ne, hls, ?_⟩
    rw [hlead, ← htext, Lexeme.chars, read_word_append]

/-- A literal is passed over. -/
theorem read_literal {q : Literal} (h : InArguments names s)
    (hlaid : Laid (.literal q :: ls) text rest) :
    ∃ t after, InArguments names t ∧ Laid ls after rest ∧ s.read text = t.read after := by
  obtain ⟨run, after, hrun, rfl, _, hls⟩ := hlaid
  have htext : (Lexeme.literal q).chars ++ after =
      q.quote :: (q.content ++ q.quote :: after) := by simp [Lexeme.chars]
  have hjoin : mayJoin q.quote = false := by
    rcases isQuote_iff.1 q.isQuote with hq | hq <;> rw [hq] <;> decide
  have hpass : ∀ u : OpenStatement, u.read (q.quote :: (q.content ++ q.quote :: after)) =
      u.read after := by
    intro u
    rw [read_cons, step_quote q.isQuote, afterQuote_append q.isQuote q.escaped]
  rw [htext]
  rcases Loose.read_lead hrun h.plainly hjoin (isBlank_eq_false_of_isQuote q.isQuote)
    (ne_of_isQuote q.isQuote (by decide)) (q.content ++ q.quote :: after) with rfl | hlead
  · exact ⟨s, after, h, hls, hpass s⟩
  · exact ⟨s.endToken, after, h.endToken, hls, hlead.trans (hpass _)⟩

/-- A mark that may join adds to the token, or ends it. -/
theorem read_joining {c : Char} (h : InArguments names s)
    (hc : c ∈ ['.', ',', '<', '>', '[', ']', '?']) (hlaid : Laid (.mark c :: l :: ls) text rest) :
    ∃ t after, InArguments names t ∧ Laid (l :: ls) after rest ∧ s.read text = t.read after := by
  obtain ⟨run, after, hrun, rfl, _, hls⟩ := hlaid
  have hkinds : ∀ d ∈ ['.', ',', '<', '>', '[', ']', '?'], mayJoin d = true ∧ isBlank d = false ∧
      d ≠ '/' ∧ interruptsName d = true ∧ isQuote d = false ∧ d ≠ '(' ∧ d ≠ ')' ∧
        mayEnd d = false ∧ d ≠ '@' := by decide
  obtain ⟨hjoin, hblank, hslash, hinterrupts, hquote, hopen, hclose, hends, hat⟩ := hkinds c hc
  rw [Lexeme.chars, List.singleton_append]
  by_cases hdirect : run = [] ∧ s.current = ""
  · obtain ⟨rfl, hcurrent⟩ := hdirect
    rw [List.nil_append, read_cons, step, if_neg (by simp [hblank, hslash]),
      if_neg (by simp [hcurrent]), if_neg (by simp [hquote]), if_neg hopen, if_neg hclose,
      if_neg (by simp [hends])]
    by_cases hangle : c = '<'
    · rw [if_pos hangle]
      exact ⟨_, after, (h.countAngle c).push ⟨hopen, hat⟩, hls, rfl⟩
    · rw [if_neg hangle]
      exact ⟨_, after, h.push ⟨hopen, hat⟩, hls, rfl⟩
  · have hboundary : s.read (run ++ c :: after) = (s.joint c after).1.read (s.joint c after).2 := by
      have hjoint : s.boundary c after = s.joint c after := by rw [boundary, if_pos hjoin]
      by_cases hempty : run = []
      · subst hempty
        have hcurrent : s.current ≠ "" := fun hs => hdirect ⟨rfl, hs⟩
        rw [List.nil_append, read_interrupting hcurrent hinterrupts, hjoint]
      · rw [read_blanks_append s hrun hempty hblank hslash, hjoint]
    obtain ⟨hinside, htext⟩ := h.joint ⟨hopen, hat⟩ after
    refine ⟨_, _, hinside, ?_, hboundary⟩
    rcases htext with htext | htext <;> rw [htext]
    · exact hls
    · exact hls.of_skipBlanks

/-- A mark that may end a statement ends none inside parentheses. -/
theorem read_ending {c : Char} (h : InArguments names s) (hc : c ∈ ['=', ':', ';', '\x7b', '\x7d'])
    (hlaid : Laid (.mark c :: ls) text rest) :
    ∃ t after, InArguments names t ∧ Laid ls after rest ∧ s.read text = t.read after := by
  have hinside : ∀ u : OpenStatement, InArguments names u → 0 < u.parentheses := by
    intro u hu
    rw [hu.parentheses]
    decide
  by_cases hstop : c = '=' ∨ c = '\x7b'
  · have hkinds : ∀ d ∈ ['=', '\x7b'], isPlain d = false ∧ isQuote d = false ∧ mayEnd d = true ∧
        d ≠ ':' ∧ d ∈ ['(', ')', '=', '\x7b'] := by decide
    obtain ⟨hplain, hquote, hends, hcolon, hstops⟩ := hkinds c (by simpa using hstop)
    obtain ⟨after, hls, hread⟩ :=
      ((h.loose text).stands hlaid ⟨hplain, hquote⟩).read_stop hlaid hstops
    refine ⟨s.endToken, after, h.endToken, hls, ?_⟩
    rw [hread, read_cons, step_mayEnd hends (.inl (current_endToken s)), readEnding,
      if_neg (by simp [hcolon]), if_pos (hinside _ h.endToken)]
  · have hends : c ∈ [';', '\x7d', ':'] := by
      simp only [List.mem_cons, List.not_mem_nil, or_false] at hc hstop ⊢
      grind
    obtain ⟨u, after, _, _, _, _, hu, hls, hread⟩ :=
      (h.loose text).read_ending_lead hends hlaid
    have hin : InArguments names u := by
      rcases hu with rfl | rfl
      · exact h
      · exact h.endToken
    have hkinds : ∀ d ∈ [';', '\x7d', ':'], mayEnd d = true ∧ interruptsName d = false ∧
        d ≠ '(' ∧ d ≠ '@' := by decide
    obtain ⟨hmay, hinterrupts, hopen, hat⟩ := hkinds c hends
    rw [read_cons, step_mayEnd hmay (.inr hinterrupts), readEnding] at hread
    by_cases hpush : c = ':' ∧ u.endsInLabel = false
    · rw [if_pos hpush] at hread
      exact ⟨u.push c, after, hin.push ⟨hopen, hat⟩, hls, hread⟩
    · rw [if_neg hpush, if_pos (hinside u hin)] at hread
      exact ⟨u, after, hin, hls, hread⟩

/-- Any lexeme but a parenthesis is read inside the arguments. -/
theorem read_lexeme {x : Lexeme} (h : InArguments names s) (hx : x.isNoParenthesis = true)
    (hlaid : Laid (x :: l :: ls) text rest) :
    ∃ t after, InArguments names t ∧ Laid (l :: ls) after rest ∧ s.read text = t.read after := by
  cases x with
  | word w => exact h.read_word hlaid
  | literal q => exact h.read_literal hlaid
  | mark c =>
      have hmark : isMark c = true := by
        obtain ⟨_, _, _, _, hfits, _⟩ := hlaid
        exact hfits.1
      have hkinds : ∀ d ∈ ['(', ')', '[', ']', '\x7b', '\x7d', '<', '>', '.', ',', '?', '=', ':',
          ';', '/'], (Lexeme.mark d).isNoParenthesis = true → d = '/' ∨
            d ∈ ['.', ',', '<', '>', '[', ']', '?'] ∨ d ∈ ['=', ':', ';', '\x7b', '\x7d'] := by
        decide
      rw [isMark, List.contains_iff_mem] at hmark
      rcases hkinds c hmark hx with rfl | hjoins | hends
      · obtain ⟨after, _, hls, hread⟩ := Loose.read_mark_slash hlaid (h.loose text)
        exact ⟨s, after, h, hls, hread⟩
      · exact h.read_joining hjoins hlaid
      · exact h.read_ending hends hlaid

/-- Arguments are read up to the closing parenthesis. -/
theorem read_lexemes (h : InArguments names s) (hls : ls.all Lexeme.isNoParenthesis = true)
    {more : List Lexeme} (hlaid : Laid (ls ++ l :: more) text rest) :
    ∃ t after, InArguments names t ∧ Laid (l :: more) after rest ∧ s.read text = t.read after := by
  induction ls generalizing s text with
  | nil => exact ⟨s, text, h, hlaid, rfl⟩
  | cons x ls ih =>
      rw [List.all_cons, Bool.and_eq_true] at hls
      obtain ⟨first, others, hsplit⟩ :=
        List.exists_cons_of_ne_nil (l := ls ++ l :: more) (by simp)
      rw [List.cons_append, hsplit] at hlaid
      obtain ⟨t, mid, ht, hmid, hread⟩ := h.read_lexeme hls.1 hlaid
      rw [← hsplit] at hmid
      obtain ⟨u, after, hu, hafter, hread'⟩ := ih ht hls.2 hmid
      exact ⟨u, after, hu, hafter, hread.trans hread'⟩

/-- The closing parenthesis drops the arguments. -/
theorem closeParenthesis_eq (h : InArguments names s) (hcurrent : s.current = "")
    (hnames : isInert names = false) {ahead : List Char} (hahead : opensBody ahead = false) :
    s.closeParenthesis ahead = ⟨[], names, 0, s.angles⟩ := by
  obtain ⟨others, htokens, hnot⟩ := h.tokens
  rw [closeParenthesis]
  simp [hahead, beginsInert, htokens, hnames, hnot, reopen, hcurrent, h.parentheses]

end InArguments

/-! ## Names -/

/-- The token of a list of names. -/
def nameToken (n : Name) (ns : List Name) : String := n.text ++ namesAfter ns

theorem nameToken_append (n m : Name) (ns : List Name) :
    nameToken n (ns ++ [m]) = nameToken n ns ++ ("," ++ m.text) := by
  have hafter : namesAfter (ns ++ [m]) = namesAfter ns ++ ("," ++ m.text) := by
    induction ns with
    | nil => simp [namesAfter]
    | cons k ns ih => simp only [List.cons_append, namesAfter, ih, String.append_assoc]
  rw [nameToken, nameToken, hafter, String.append_assoc]

theorem nameToken_ne_empty (n : Name) (ns : List Name) : nameToken n ns ≠ "" := by
  simp [nameToken, n.ne_empty]

theorem nameToken_head? (n : Name) (ns : List Name) : (nameToken n ns).toList.head? ≠ some '@' := by
  obtain ⟨c, cs, hw, _, hat⟩ := n.exists_cons
  simpa [nameToken, hw] using hat

/-- The readers do not act on a list of names. -/
theorem nameToken_free (n : Name) (ns : List Name) :
    reservedWords.contains (nameToken n ns) = false := by
  cases ns with
  | nil => simpa [nameToken, namesAfter] using n.free
  | cons m ns =>
      have hcomma : ',' ∈ (nameToken n (m :: ns)).toList := by simp [nameToken, namesAfter]
      exact not_reserved_of_mark hcomma (by decide)

theorem not_isInert_nameToken (n : Name) (ns : List Name) : isInert (nameToken n ns) = false := by
  have hfree := nameToken_free n ns
  simp only [reservedWords, List.contains_eq_mem, decide_eq_false_iff_not, List.mem_append,
    not_or] at hfree
  rw [isInert, List.contains_eq_mem, decide_eq_false_iff_not]
  exact hfree.2

/-- A statement of which nothing but a list of names has been read. -/
structure Names (names : String) (s : OpenStatement) (text : List Char) : Prop where
  tokens : s.tokens = []
  current : s.current = names
  parentheses : s.parentheses = 0
  apart : Apart text

namespace Names

variable {n : Name} {ns : List Name} {s : OpenStatement} {more : List Lexeme}
  {text mid rest : List Char}

theorem plainly (h : Names (nameToken n ns) s text) : s.atAnnotation = false := by
  rw [ atAnnotation, h.current]
  simpa using nameToken_head? n ns

/-- The names are one token if they end. -/
theorem stands (h : Names (nameToken n ns) s text) :
    Stands s ⟨[nameToken n ns], "", 0, s.angles⟩ text := by
  have hcurrent : s.current ≠ "" := by
    rw [h.current]
    exact nameToken_ne_empty n ns
  have hended := endToken_of_current_ne_empty hcurrent h.plainly
  rw [h.tokens, h.current, h.parentheses] at hended
  exact hended ▸ Stands.of_apart h.plainly h.apart

/-- A comma and a name go on with the names. -/
theorem read_name (h : Names (nameToken n ns) s text) (m : Name)
    (hlaid : Laid (.mark ',' :: .word m.toWord :: more) text rest) : ∃ t after,
      Names (nameToken n (ns ++ [m])) t after ∧ Laid more after rest ∧
        s.read text = t.read after := by
  have hcurrent : s.current ≠ "" := by
    rw [h.current]
    exact nameToken_ne_empty n ns
  obtain ⟨after, hfits, hafter, hread⟩ := read_comma_word m.toWord h.parentheses hcurrent hlaid
  refine ⟨s.extend ("," ++ m.text), after, ⟨h.tokens, ?_, h.parentheses, hfits⟩, hafter, hread⟩
  rw [nameToken_append, ← h.current]
  rfl

/-- Arguments after the names are dropped. -/
theorem read_arguments (h : Names (nameToken n ns) s text) {a : FlatArguments} {c : Char}
    (hc : c = ',' ∨ c = ';') (hlaid : Decoration.LaidOut (.arguments a) text mid)
    (hnext : Laid (.mark c :: more) mid rest) :
    ∃ t after, Names (nameToken n ns) t after ∧ Laid (.mark c :: more) after rest ∧
      s.read text = t.read after := by
  have hlaid : Laid (.mark '(' :: (a.lexemes ++ .mark ')' :: .mark c :: more)) text rest := by
    simpa using Laid.trans hlaid hnext
  obtain ⟨inner, hinner, hopen⟩ := h.stands.read_stop hlaid (by decide)
  rw [read_openParenthesis rfl] at hopen
  have hinside : InArguments (nameToken n ns)
      (openParenthesis ⟨[nameToken n ns], "", 0, s.angles⟩) :=
    ⟨by simp [ atAnnotation, openParenthesis], rfl, ⟨[], rfl, by simp⟩, by simp [openParenthesis]⟩
  obtain ⟨t, last, ht, hlast, hread⟩ := hinside.read_lexemes a.isNoParenthesis hinner
  obtain ⟨after, hafter, htight, hclose⟩ := (ht.loose last).read_mark_close hlast
  have hhead : after.head? = some c := by
    rw [← htight, hafter.head?_skipBlanks]
    rfl
  have hahead : opensBody after = false := by
    obtain ⟨d, others, rfl⟩ : ∃ d others, after = d :: others := by
      cases after with
      | nil => cases hhead
      | cons d others => exact ⟨d, others, rfl⟩
    cases hhead
    rcases hc with rfl | rfl <;> simp [opensBody, List.isPrefixOf]
  rw [ht.endToken.closeParenthesis_eq (current_endToken t) (not_isInert_nameToken n ns) hahead]
    at hclose
  refine ⟨_, after, ⟨rfl, rfl, rfl, ?_⟩, hafter, hopen.trans (hread.trans hclose)⟩
  exact hafter.apart (by rcases hc with rfl | rfl <;> decide)

/-- A body after the names is passed over. -/
theorem read_body (h : Names (nameToken n ns) s text) {b : ClassBody} {c : Char}
    (hc : c = ',' ∨ c = ';') (hlaid : Decoration.LaidOut (.body b) text mid)
    (hnext : Laid (.mark c :: more) mid rest) :
    ∃ t after, Names (nameToken n ns) t after ∧ Laid (.mark c :: more) after rest ∧
      s.read text = t.read after := by
  obtain ⟨run, hrun, rfl⟩ := hlaid
  have hbrace : Laid [.mark '\x7b'] (run ++ '\x7b' :: (b.text ++ '\x7d' :: mid))
      (b.text ++ '\x7d' :: mid) := ⟨run, _, hrun, rfl, ⟨by decide, by simp⟩, .nil _⟩
  obtain ⟨inner, hinner, hopen⟩ := h.stands.read_stop hbrace (by decide)
  have hafter : afterBracket '\x7b' '\x7d' 0 inner = mid := by
    rw [hinner.afterBracket_nil, b.afterBracket_eq]
    exact afterBracket_zero_closing (k := ('\x7b', '\x7d')) (by decide) mid
  have hstatic : nameToken n ns ≠ "static" := by
    intro heq
    have hfree := nameToken_free n ns
    rw [heq] at hfree
    exact absurd hfree (by decide)
  have hlone : isLoneName ⟨[nameToken n ns], "", 0, s.angles⟩ = true := by
    simp [isLoneName, beginsInert, not_isInert_nameToken, hstatic]
  rw [read_cons, step_mayEnd (by decide) (.inl rfl), readEnding, if_neg (by simp)] at hopen
  simp only [reduceIte, hlone, hafter] at hopen
  refine ⟨_, mid, ⟨rfl, by simp [reopen], rfl, ?_⟩, hnext, hopen⟩
  exact hnext.apart (by rcases hc with rfl | rfl <;> decide)

/-- Whatever is written after a constant, the names stay. -/
theorem read_decoration (h : Names (nameToken n ns) s text) {d : Decoration} {c : Char}
    (hc : c = ',' ∨ c = ';') (hlaid : d.LaidOut text mid)
    (hnext : Laid (.mark c :: more) mid rest) :
    ∃ t after, Names (nameToken n ns) t after ∧ Laid (.mark c :: more) after rest ∧
      s.read text = t.read after := by
  cases d with
  | none => exact ⟨s, text, h, Laid.trans hlaid hnext, rfl⟩
  | arguments a => exact h.read_arguments hc hlaid hnext
  | body b => exact h.read_body hc hlaid hnext

/-- Constants are read up to the semicolon. -/
theorem read_constants {d : Decoration} {cs : List (Name × Decoration)} {last : List Char}
    (h : Names (nameToken n ns) s text) (hlaid : d.LaidOut text mid)
    (hmore : EnumConstants.MoreLaidOut cs mid last) (hend : Laid (.mark ';' :: more) last rest) :
    ∃ t after, Names (nameToken n (ns ++ cs.map Prod.fst)) t after ∧
      Laid (.mark ';' :: more) after rest ∧ s.read text = t.read after := by
  induction cs generalizing ns d s text mid with
  | nil =>
      rw [List.map_nil, List.append_nil]
      exact h.read_decoration (.inr rfl) hlaid (Laid.trans hmore hend)
  | cons c cs ih =>
      obtain ⟨m, e⟩ := c
      obtain ⟨next, mid', hname, hdecoration, hmore⟩ := hmore
      obtain ⟨t, before, ht, hbefore, hread⟩ := h.read_decoration (.inl rfl) hlaid hname
      obtain ⟨u, text', hu, ⟨run, hrun, rfl⟩, hreadName⟩ := ht.read_name m hbefore
      obtain ⟨v, after, hv, hafter, hrest⟩ := ih hu (hdecoration.blanks_append hrun) hmore
      refine ⟨v, after, ?_, hafter, hread.trans (hreadName.trans hrest)⟩
      rwa [List.map_cons, List.append_cons]

end Names

/-- **The constants of an enum are one token**, that of their names. -/
theorem EnumConstants.scan_eq {cs : EnumConstants} {more : List Lexeme} {text last rest : List Char}
    (hlaid : cs.LaidOut text last) (hend : Laid (.mark ';' :: more) last rest) :
    ∃ after, Laid more after rest ∧
      scan text = some (⟨[nameToken cs.first (cs.more.map Prod.fst)], .semicolon⟩, after) := by
  obtain ⟨next, mid, hname, hdecoration, hmore⟩ := hlaid
  obtain ⟨text', hlaid', hscan⟩ := scan_eq_read (by simp) hname
  obtain ⟨text'', hfits, ⟨run, hrun, rfl⟩, hread⟩ := (stands_start text').read_word hlaid'
  have hfirst : Names (nameToken cs.first []) (start.extend cs.first.text) (run ++ next) :=
    ⟨rfl, by simp [extend, start, nameToken, namesAfter], rfl, hfits⟩
  obtain ⟨t, before, ht, hbefore, hconstants⟩ :=
    hfirst.read_constants (hdecoration.blanks_append hrun) hmore hend
  obtain ⟨after, hafter, hsemicolon⟩ := ht.stands.read_semicolon rfl hbefore
  exact ⟨after, hafter, hscan.trans (hread.trans (hconstants.trans hsemicolon))⟩

/-! ## Types with constants -/

namespace EnumConstants

/-- The constants without arguments and bodies. -/
def bare (cs : EnumConstants) : EnumConstants :=
  ⟨cs.first, .none, cs.more.map fun c => (c.1, .none)⟩

@[simp] theorem names_bare (cs : EnumConstants) : cs.bare.names = cs.names := by
  simp [names, bare, Function.comp_def]

/-- Whether a text begins with a type up to the semicolon after its
constants. -/
def TypeLaidOut (h : TypeHeading) (cs : EnumConstants) (text tail : List Char) : Prop :=
  ∃ body last, Laid (h.lexemes ++ [.mark '\x7b']) text body ∧ cs.LaidOut body last ∧
    Laid [.mark ';'] last tail

/-- What has been read of a type after its constants, where its body goes on
with `tail`. -/
def opened (h : TypeHeading) (cs : EnumConstants) (p : Progress) (tail : List Char) : Progress :=
  (p.openType h.header (afterBracket '\x7b' '\x7d' 0 tail)).mapRecord
    (TypeRecord.addFields cs.names.fields)

variable {h : TypeHeading} {cs : EnumConstants} {p : Progress} {text bare tail : List Char}

/-- A type is entered, its constants are added, and its body goes on after
them. -/
theorem read_eq_opened (withLocals : Bool)
    (hinert : p.nesting.level = .methodBody → ∀ x ∈ h.modifiers.head?, isInert x.text = false)
    (hlaid : TypeLaidOut h cs text tail) : p.read withLocals text =
      (((opened h cs p tail).read withLocals tail).closeType).read withLocals
        (afterBracket '\x7b' '\x7d' 0 tail) := by
  obtain ⟨body, last, hheading, hlaidOut, hend⟩ := hlaid
  obtain ⟨_, ⟨run, hrun, rfl⟩, hscan⟩ := scan_heading h hheading
  have hpass : Passes [.mark ';'] := .cons (by simp) (by simp) .nil
  rw [afterBracket_blanks_append _ _ _ (by decide) (by decide) hrun, hlaidOut.afterBracket_eq,
    hpass 0 last tail hend] at hscan
  obtain ⟨_, ⟨run', hrun', rfl⟩, hconstants⟩ := scan_eq hlaidOut hend
  have hnames : Reading.ofTokens .typeBody [nameToken cs.first (cs.more.map Prod.fst)] =
      .declaring (.fields cs.names.fields) := Reading.ofTokens_names _ _ true
  have hinside : (p.openType h.header (afterBracket '\x7b' '\x7d' 0 tail)).nesting.level =
      .typeBody := rfl
  rw [Progress.read_of_scan hscan, h.reading hinert]
  simp only [Progress.readAfter, Reading.declaring, List.foldl_nil]
  rw [Progress.read_blanks_append withLocals hrun,
    Progress.read_fields withLocals hconstants (hinside ▸ hnames),
    Progress.read_blanks_append withLocals hrun']
  rfl

/-- What is read of a type whose body goes on with `tail`: the types inside,
and a record that begins with the constants. -/
theorem exists_closeType_eq (withLocals : Bool) (h : TypeHeading) (cs : EnumConstants)
    (p : Progress) (tail : List Char) : ∃ inner imports fields methods,
      cs.names.fields <+: fields ∧ ((opened h cs p tail).read withLocals tail).closeType =
        ⟨p.nesting.mapEnclosing fun outer =>
            outer.addImport h.name.text (p.nesting.place.fullName h.name.text),
          p.records ++ (inner ++
            [{ p.nesting.place.startRecord h.header with imports, fields, methods }])⟩ := by
  have hopened : opened h cs p tail =
      ⟨(p.nesting.mapEnclosing fun outer =>
          outer.addImport h.name.text (p.nesting.place.fullName h.name.text)).push
        ⟨.typeBody, p.nesting.place.scopeInside h.name.text,
          (p.nesting.place.startRecord h.header).addFields cs.names.fields,
          afterBracket '\x7b' '\x7d' 0 tail⟩, p.records⟩ := by
    rw [opened, p.openType_eq (h.name.not_mem (by decide))]
    rfl
  have hlearns := Progress.learns_read withLocals (opened h cs p tail) tail
  have hfields := Progress.prefix_fields_read withLocals (opened h cs p tail) tail
  obtain ⟨inner, hinner⟩ := (Progress.keeps_read withLocals (opened h cs p tail) tail).records
  generalize (opened h cs p tail).read withLocals tail = q at hlearns hfields hinner ⊢
  obtain ⟨nesting, records⟩ := q
  rw [hopened] at hlearns hfields hinner
  obtain ⟨frame, rfl, hsame⟩ := Learns.of_push_type hlearns
  obtain ⟨imports, fields, methods, hrecord⟩ := hsame.exists_eq_of_learn
  refine ⟨inner, imports, fields, methods, ?_, ?_⟩
  · simpa [Progress.fields, Nesting.record?, Nesting.push, TypeRecord.addFields,
      Place.startRecord, hrecord] using hfields
  · have hclose : ∀ n : Nesting (List Char),
        (⟨n.push frame, records⟩ : Progress).closeType = ⟨n, records ++ [frame.record]⟩ :=
      fun _ => rfl
    have hrecords : records = p.records ++ inner := hinner.symm
    rw [hclose, hrecords, hrecord, List.append_assoc]
    rfl

/-- **The constants of an enum by their names.**  Whatever is written between
the parentheses after a constant, as long as no other parenthesis is, and
whatever block is written after one instead, the type is read as if the
names stood alone, and its record begins with the constants in order. -/
theorem read_eq_names (withLocals : Bool)
    (hinert : p.nesting.level = .methodBody → ∀ x ∈ h.modifiers.head?, isInert x.text = false)
    (hlaid : TypeLaidOut h cs text tail) (hbare : TypeLaidOut h cs.bare bare tail) :
    p.read withLocals text = p.read withLocals bare ∧ ∃ inner imports fields methods,
      cs.names.fields <+: fields ∧ p.read withLocals text =
        (⟨p.nesting.mapEnclosing fun outer =>
            outer.addImport h.name.text (p.nesting.place.fullName h.name.text),
          p.records ++ (inner ++
            [{ p.nesting.place.startRecord h.header with imports, fields, methods }])⟩ :
          Progress).read withLocals (afterBracket '\x7b' '\x7d' 0 tail) := by
  have hread := read_eq_opened withLocals hinert hlaid
  have hreadBare := read_eq_opened withLocals hinert hbare
  have hopened : opened h cs.bare p tail = opened h cs p tail := by rw [opened, opened, names_bare]
  obtain ⟨inner, imports, fields, methods, hfields, hclosed⟩ :=
    exists_closeType_eq withLocals h cs p tail
  refine ⟨?_, inner, imports, fields, methods, hfields, ?_⟩
  · rw [hread, hreadBare, hopened]
  · rw [hread, hclosed]

/-- The header `enum E`. -/
def shapeHeading : TypeHeading := ⟨[], .enumType, ⟨⟨"E", .refl true⟩, .refl false⟩, none, []⟩

/-- The body `{ @Override int f() { return 1; } }`. -/
def overriding : ClassBody where
  text := " @Override int f() ".toList ++
    '\x7b' :: (" return 1; ".toList ++ '\x7d' :: " ".toList)
  closed := by
    have hinner : Closed [('\x7b', '\x7d')] (" return 1; ".toList ++ []) :=
      .code_append (by decide) .nil
    have hend : Closed [('\x7b', '\x7d')] (" ".toList ++ []) := .code_append (by decide) .nil
    rw [List.append_nil] at hinner hend
    exact .code_append (by decide) (.block (k := ('\x7b', '\x7d')) (by simp) hinner hend)

/-- The constants `A(1, x < 2), B { @Override int f() { return 1; } }, C`. -/
def shapes : EnumConstants where
  first := ⟨⟨"A", .refl true⟩, .refl false⟩
  decoration := .arguments ⟨[.word ⟨"1", .refl true⟩, .mark ',', .word ⟨"x", .refl true⟩, .mark '<',
    .word ⟨"2", .refl true⟩], .refl true⟩
  more := [(⟨⟨"B", .refl true⟩, .refl false⟩, .body overriding),
    (⟨⟨"C", .refl true⟩, .refl false⟩, .none)]

/-- `enum E` with the constants `shapes`, up to the semicolon after them. -/
def shapesText : String :=
  "enum E \x7b A ( 1 , x < 2 ) , B \x7b @Override int f() \x7b return 1; \x7d \x7d , C ;"

theorem read_eq_names_shapes :
    Progress.start.read true (shapesText ++ " int x; \x7d").toList =
      Progress.start.read true "enum E \x7b A , B , C ; int x; \x7d".toList ∧
    ∃ inner record, shapes.names.fields <+: record.fields ∧ record.name = "E" ∧
      Progress.start.read true (shapesText ++ " int x; \x7d").toList =
        ⟨Progress.start.nesting, inner ++ [record]⟩ := by
  have hspaced : ∀ {ls : List Lexeme} {rest : List Char}, ls.all Lexeme.isFormed = true →
      Laid ls (spaced ls ++ ' ' :: rest) (' ' :: rest) := fun hformed =>
    laid_spaced_append (isMark_of_all_isFormed hformed) (by intro c hc; cases hc; decide)
  have hblank : isBlank ' ' = true := by decide
  obtain ⟨text, hlaid, htext⟩ : ∃ text,
      TypeLaidOut shapeHeading shapes text (' ' :: "int x; \x7d".toList) ∧
        text = (shapesText ++ " int x; \x7d").toList :=
    ⟨_, ⟨_, _, hspaced (by decide +kernel), ⟨_, _, (hspaced (by decide +kernel)).blank hblank,
      (hspaced (by decide +kernel)).blank hblank, ⟨_, _, (hspaced (by decide +kernel)).blank hblank,
        ⟨[' '], by decide, rfl⟩, ⟨_, _, (hspaced (by decide +kernel)).blank hblank, .nil _,
          .nil _⟩⟩⟩, (hspaced (by decide +kernel)).blank hblank⟩, by decide +kernel⟩
  obtain ⟨bare, hbare, hnames⟩ : ∃ bare,
      TypeLaidOut shapeHeading shapes.bare bare (' ' :: "int x; \x7d".toList) ∧
        bare = "enum E \x7b A , B , C ; int x; \x7d".toList :=
    ⟨_, ⟨_, _, hspaced (by decide +kernel), ⟨_, _, (hspaced (by decide +kernel)).blank hblank,
      .nil _, ⟨_, _, (hspaced (by decide +kernel)).blank hblank, .nil _, ⟨_, _,
        (hspaced (by decide +kernel)).blank hblank, .nil _, .nil _⟩⟩⟩,
          (hspaced (by decide +kernel)).blank hblank⟩, by decide +kernel⟩
  obtain ⟨heq, inner, imports, fields, methods, hfields, hread⟩ :=
    read_eq_names true (p := Progress.start) (fun hlevel => absurd hlevel (by decide)) hlaid hbare
  have hafter : afterBracket '\x7b' '\x7d' 0 (' ' :: "int x; \x7d".toList) = [] := by
    decide +kernel
  rw [htext, hnames] at heq
  rw [htext, hafter, Progress.read_blanks true _ (.nil [])] at hread
  exact ⟨heq, inner, _, hfields, rfl, hread⟩

/-- The names of the fields and the methods that are read of a text. -/
def memberNames (text : String) : List (List String × List String) :=
  (outline false text).map fun record =>
    (record.fields.map (fun m => m.name), record.methods.map fun m => m.name)

/-- A constant with arguments and a body is taken for a constructor. -/
theorem not_read_argumentsAndBody :
    memberNames "enum E \x7b A(1) \x7b int f() \x7b return 1; \x7d \x7d, B; int x; \x7d" =
        [(["B", "x"], ["A"])] ∧
      memberNames "enum E \x7b A, B; int x; \x7d" = [(["A", "B", "x"], [])] := by
  decide +kernel

end EnumConstants

end JavaOutline
