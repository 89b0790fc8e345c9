import JavaOutline.Proofs.Grammar.Blocks

/-!
# JavaOutline.Proofs.Grammar.Calls

How statements with parentheses in them are read: the heads of blocks
(`scan_head`) and calls (`scan_call`).  Both declare nothing.

After the arguments of a call either all of its tokens are kept or only the
name that is called, which goes on (`AfterCall`); in both ways the next
call of a chain is read.
-/

namespace JavaOutline

open Text OpenStatement

/-! ## Tokens that declare nothing -/

namespace Reading

/-- In the body of a method an inert word makes a statement say nothing. -/
theorem ofTokens_inert {token : String} (h : isInert token = true) (tokens : List String) :
    ofTokens .methodBody (token :: tokens) = nothing := by
  have hwords : ∀ word ∈ inertWords, Access.ofKeyword? word = none ∧ word ≠ "static" ∧
      word ≠ "final" ∧ word ≠ "package" ∧ word ≠ "import" ∧ TypeKind.ofKeyword? word = none := by
    decide
  obtain ⟨haccess, hstatic, hfinal, hpackage, himport, hkind⟩ :=
    hwords token (List.contains_iff_mem.1 h)
  rw [ofTokens, ofTokensAfter, haccess, hkind]
  simp [hstatic, hfinal, hpackage, himport, h]

/-- So does a name alone. -/
theorem ofTokens_name {name : String} (hfree : reservedWords.contains name = false)
    (hangle : name.toList.head? ≠ some '<') : ofTokens .methodBody [name] = nothing := by
  rw [ofTokens, ofTokensAfter_member hfree hangle (by simp), member]
  rfl

/-- So does a call. -/
theorem ofTokens_call {name : String} (hfree : reservedWords.contains name = false)
    (hangle : name.toList.head? ≠ some '<') (tokens : List String) :
    ofTokens .methodBody (name :: "(" :: tokens) = nothing := by
  rw [ofTokens, ofTokensAfter_member hfree hangle (by simp), member]
  · simp [Modifiers.declare, nothing, declaring]
  · simp

end Reading

/-! ## Parentheses -/

/-- A parenthesis is read up to the closing one, whatever it holds. -/
theorem OpenStatement.Stands.read_group {s k : OpenStatement} {l : Lexeme} {more : List Lexeme}
    {text rest : List Char} (h : Stands s k text) (htokens : k.tokens ≠ [])
    (hparentheses : k.parentheses = 0) (e : Enclosed)
    (hlaid : Laid (.mark '(' :: (e.lexemes ++ .mark ')' :: l :: more)) text rest) : ∃ (t : OpenStatement) (after : List Char),
      t.current = "" ∧ t.parentheses = 1 ∧ k.tokens ++ ["("] <+: t.tokens ∧
        Laid (l :: more) after rest ∧ skipBlanks after = after ∧
          s.read text = (t.closeParenthesis after).read after := by
  obtain ⟨start, hstart, hread⟩ := h.read_stop hlaid (by decide)
  have hcurrent : k.openParenthesis.current = "" := h.current_eq
  have hopened : k.openParenthesis.parentheses = 1 := by rw [openParenthesis, hparentheses]; rfl
  have hlength : 2 ≤ k.openParenthesis.tokens.length := by
    have hpositive := List.length_pos_iff.2 htokens
    simp only [openParenthesis, List.length_append, List.length_cons, List.length_nil]
    omega
  obtain ⟨t, mid, ht, hgrows, hinside, hmid, hread'⟩ := e.readInside k.openParenthesis
    (.mark ')') (l :: more) start rest (.of_current_eq_empty hcurrent start) hlength (by simp)
    (by rw [hopened]; decide) hstart
  obtain ⟨after, hafter, htight, hclose⟩ := ht.read_mark_close hmid
  refine ⟨t.endToken, after, current_endToken t, ?_,
    hgrows.tokens.trans (Grows.endToken ht.plainly).tokens, hafter, htight, ?_⟩
  · rw [parentheses_endToken, hinside, hopened]
    rfl
  · rw [hread, read_openParenthesis h.current_eq, hread', hclose]

/-! ## Heads of blocks -/

/-- Before a block a parenthesis is kept. -/
theorem OpenStatement.Stands.read_group_block {s k : OpenStatement} {more : List Lexeme}
    {text rest : List Char} (h : Stands s k text) (htokens : k.tokens ≠ [])
    (hparentheses : k.parentheses = 0) (e : Enclosed)
    (hlaid : Laid (.mark '(' :: (e.lexemes ++ .mark ')' :: .mark '\x7b' :: more)) text rest) :
    ∃ tokens body after,
      k.tokens ++ ["("] <+: tokens ∧ Laid more body rest ∧
        s.read text = some (⟨tokens, .block body after⟩, after) := by
  obtain ⟨t, mid, hcurrent, hopen, htokens', hmid, htight, hread⟩ :=
    h.read_group htokens hparentheses e hlaid
  have hbrace : opensBody mid = true := by
    have hhead := hmid.head?_skipBlanks
    rw [htight] at hhead
    simp [opensBody, hhead, Lexeme.chars]
  have hclosed : t.closeParenthesis mid = t.closed := closeParenthesis_eq_closed (.inl hbrace)
  have hempty : t.closed.current = "" := hcurrent
  have hzero : t.closed.parentheses = 0 := by rw [closed, hopen]; rfl
  have hlone : t.closed.isLoneName = false := by
    have hlength := htokens'.length_le
    have hpositive := List.length_pos_iff.2 htokens
    simp only [List.length_append, List.length_cons, List.length_nil] at hlength
    have hmany : t.closed.tokens.length ≠ 1 := by
      simp only [closed, List.length_append, List.length_cons, List.length_nil]
      omega
    simp [isLoneName, hmany]
  obtain ⟨body, hbody, hend⟩ :=
    (Stands.of_current_eq_empty hempty mid).read_block hzero hlone hmid
  refine ⟨t.closed.tokens, body, afterBracket '\x7b' '\x7d' 0 body,
    htokens'.trans (List.prefix_append _ _), hbody, ?_⟩
  rw [hread, hclosed, hend]

theorem ControlWord.inert (w : ControlWord) : isInert w.text = true ∧ w.text ≠ "new" := by
  have hall : ∀ word ∈ controlWords, isInert word = true ∧ word ≠ "new" := by decide
  exact hall w.text (List.contains_iff_mem.1 w.isControl)

/-- The head of a block is a statement that declares nothing. -/
theorem scan_head (head : BlockHead) {more : List Lexeme} {text rest : List Char}
    (hlaid : Laid (head.lexemes ++ .mark '\x7b' :: more) text rest) : ∃ tokens body after,
      Reading.ofTokens .methodBody tokens = .nothing ∧ tokens.head? ≠ some "new" ∧
        Laid more body rest ∧ scan text = some (⟨tokens, .block body after⟩, after) := by
  cases head with
  | bare =>
      obtain ⟨body, hbody, hscan⟩ :=
        (Takes.nil (F := fun _ => True)).scan_block trivial (by simp) rfl rfl hlaid
      exact ⟨_, body, _, Reading.ofTokens_nil _, by simp, hbody, hscan⟩
  | keyword w =>
      obtain ⟨hinert, hnew⟩ := w.inert
      have hlone : (start.take w.text).isLoneName = false := by
        simp [isLoneName, beginsInert, take, hinert]
      obtain ⟨body, hbody, hscan⟩ := (takes_word start w.toWord).scan_block
        (by simp [Lexeme.Follows]) (by simp) rfl hlone hlaid
      exact ⟨_, body, _, Reading.ofTokens_inert hinert [], by simpa [take] using hnew, hbody, hscan⟩
  | guarded w ws guard =>
      obtain ⟨hinert, hnew⟩ := w.inert
      have hwords := takes_words start (w.toWord :: ws.map ControlWord.toWord)
      have hsplit : (BlockHead.guarded w ws guard).lexemes ++ .mark '\x7b' :: more =
          (w.toWord :: ws.map ControlWord.toWord).map Lexeme.word ++
            .mark '(' :: (guard.lexemes ++ .mark ')' :: .mark '\x7b' :: more) := by
        simp [BlockHead.lexemes, Enclosed.group]
      rw [hsplit] at hlaid
      obtain ⟨t, mid, ht, hmid, hscan⟩ :=
        hwords.scan_eq (by simp [Lexeme.Follows]) (by simp) (by simp) hlaid
      obtain ⟨tokens, body, after, ⟨others, rfl⟩, hbody, hread⟩ :=
        ht.read_group_block (by simp) rfl guard hmid
      refine ⟨_, body, after, ?_, ?_, hbody, hscan.trans hread⟩
      · exact Reading.ofTokens_inert hinert _
      · simpa using hnew
  | handler exception =>
      have hsplit : (BlockHead.handler exception).lexemes ++ .mark '\x7b' :: more =
          [.word catchWord] ++
            .mark '(' :: (exception.lexemes ++ .mark ')' :: .mark '\x7b' :: more) := by
        simp [BlockHead.lexemes, Enclosed.group]
      rw [hsplit] at hlaid
      obtain ⟨t, mid, ht, hmid, hscan⟩ := (takes_word start catchWord).scan_eq
        (by simp [Lexeme.Follows]) (by simp) (by simp) hlaid
      obtain ⟨tokens, body, after, ⟨others, rfl⟩, hbody, hread⟩ :=
        ht.read_group_block (by simp [take]) rfl exception hmid
      refine ⟨_, body, after, ?_, ?_, hbody, hscan.trans hread⟩
      · exact Reading.ofTokens_call (by decide) (by decide) others
      · simp [take, start, catchWord]

/-! ## Calls -/

/-- Whether a token can be what is called: the readers do not act on it,
and it begins like a name. -/
structure IsCallee (name : String) : Prop where
  free : reservedWords.contains name = false
  begins : ∃ c cs, name.toList = c :: cs ∧ isPlain c = true ∧ c ≠ '@'

namespace IsCallee

variable {name : String}

theorem ne_empty (h : IsCallee name) : name ≠ "" := by
  obtain ⟨c, cs, hname, _⟩ := h.begins
  rintro rfl
  cases hname

theorem not_head?_angle (h : IsCallee name) : name.toList.head? ≠ some '<' := by
  obtain ⟨c, cs, hname, hplain, _⟩ := h.begins
  rw [hname, List.head?_cons]
  rintro heq
  cases heq
  exact absurd hplain (by decide)

theorem text_qualifiedName (q : QualifiedName) : IsCallee q.text := by
  have hfree := WrittenType.free ⟨⟨q, none⟩, 0⟩
  have htext : WrittenType.text ⟨⟨q, none⟩, 0⟩ = q.text := by
    simp [WrittenType.text, WrittenType.lexemes, ClassType.lexemes, ClassType.tail,
      argumentLexemes, arrayBrackets, QualifiedName.text, QualifiedName.lexemes]
  rw [htext] at hfree
  obtain ⟨c, cs, hw, hplain, hat⟩ := q.first.exists_cons
  refine ⟨hfree, c, cs ++ (dotted q.more).flatMap Lexeme.chars, ?_, hplain, hat⟩
  simp [QualifiedName.text, QualifiedName.lexemes, Lexeme.chars, hw]

/-- What is called of what a call returns. -/
theorem append_dotted (h : IsCallee name) (n : Name) :
    IsCallee (name ++ written (dotted [n.toWord])) := by
  obtain ⟨c, cs, hname, hplain, hat⟩ := h.begins
  have hdot : '.' ∈ (name ++ written (dotted [n.toWord])).toList := by simp [dotted, Lexeme.chars]
  refine ⟨not_reserved_of_mark hdot (by decide), c,
    cs ++ (dotted [n.toWord]).flatMap Lexeme.chars, ?_, hplain, hat⟩
  simp [hname]

end IsCallee

namespace OpenStatement

/-- A statement after the arguments of a call: what is called goes on as
the only token, or all tokens are kept. -/
structure AfterCall (name : String) (s : OpenStatement) (text : List Char) : Prop where
  callee : IsCallee name
  parentheses : s.parentheses = 0
  tokens : (s.tokens = [] ∧ s.current = name ∧ Apart text) ∨
    (s.current = "" ∧ ∃ more, s.tokens = name :: "(" :: more)

variable {s k : OpenStatement} {name : String} {more : List Lexeme} {text rest : List Char}

/-- A closed parenthesis is kept, or only the first token is, and goes
on. -/
theorem closeParenthesis_cases {tokens : List String} (htokens : s.tokens = name :: tokens)
    (hcurrent : s.current = "") (text : List Char) : s.closeParenthesis text = s.closed ∨
      ∃ t : OpenStatement, s.closeParenthesis text = t ∧ t.tokens = [] ∧ t.current = name ∧
        t.parentheses = s.parentheses - 1 := by
  rw [closeParenthesis]
  dsimp only
  split
  · exact .inl rfl
  · refine .inr ⟨_, rfl, ?_, ?_, rfl⟩
    · simp [reopen, htokens]
    · simp [reopen, htokens, hcurrent]

/-- The arguments of a call are read. -/
theorem Stands.read_arguments (h : Stands s k text) (hcallee : IsCallee name)
    (hparentheses : k.parentheses = 0) (htokens : ∃ others, k.tokens ++ ["("] = name :: "(" :: others)
    (e : Enclosed) {c : Char} (hc : c ∈ ['.', ';'])
    (hlaid : Laid (.mark '(' :: (e.lexemes ++ .mark ')' :: .mark c :: more)) text rest) :
    ∃ t after, AfterCall name t after ∧ Laid (.mark c :: more) after rest ∧
      s.read text = t.read after := by
  obtain ⟨others, hothers⟩ := htokens
  have hsome : k.tokens ≠ [] := by
    intro hnil
    rw [hnil] at hothers
    cases hothers
  obtain ⟨t, after, hcurrent, hopen, ⟨last, hlast⟩, hafter, htight, hread⟩ :=
    h.read_group hsome hparentheses e hlaid
  have hzero : t.closed.parentheses = 0 := by rw [closed, hopen]; rfl
  have htokens : t.tokens = name :: "(" :: (others ++ last) := by
    rw [← hlast, hothers]
    rfl
  have hclosed : t.closed.tokens = name :: "(" :: (others ++ last ++ [")"]) := by
    rw [closed, htokens]
    rfl
  have hkinds : ∀ d ∈ ['.', ';'], isPlain d = false ∧ isQuote d = false := by decide
  have hapart : Apart after := by
    intro d hd
    have hhead := hafter.head?_skipBlanks
    rw [htight, hd] at hhead
    cases hhead
    exact hkinds c hc
  rcases closeParenthesis_cases htokens hcurrent after with hkept | ⟨u, hdropped, hnone, hname, hu⟩
  · rw [hkept] at hread
    exact ⟨t.closed, after, ⟨hcallee, hzero, .inr ⟨hcurrent, _, hclosed⟩⟩, hafter, hread⟩
  · rw [hdropped] at hread
    have hzero' : u.parentheses = 0 := by rw [hu, hopen]; rfl
    exact ⟨u, after, ⟨hcallee, hzero', .inl ⟨hnone, hname, hapart⟩⟩, hafter, hread⟩

/-- The name of the next call is read. -/
theorem AfterCall.read_name (h : AfterCall name s text) (n : Name)
    (hlaid : Laid (.mark '.' :: .word n.toWord :: .mark '(' :: more) text rest) :
    ∃ t k after name', Stands t k after ∧ IsCallee name' ∧ k.parentheses = 0 ∧
      (∃ others, k.tokens ++ ["("] = name' :: "(" :: others) ∧
        Laid (.mark '(' :: more) after rest ∧ s.read text = t.read after := by
  rcases h.tokens with ⟨htokens, hcurrent, hapart⟩ | ⟨hcurrent, others, htokens⟩
  · have hne : s.current ≠ "" := by rw [hcurrent]; exact h.callee.ne_empty
    have hcallee := h.callee.append_dotted n
    obtain ⟨after, hafter, hlast, hread⟩ := read_dotted [n.toWord] hne hapart hlaid
    have hat : s.atAnnotation = false := by
      obtain ⟨c, cs, hname, _, hc⟩ := h.callee.begins
      simp [ atAnnotation, hcurrent, hname, hc]
    have hat' : atAnnotation (s.extend (written (dotted [n.toWord]))) = false := by
      rw [atAnnotation_extend hne, hat]
    have hstands := Stands.of_apart hat' hafter
    rw [endToken_of_current_ne_empty (extend_ne_empty hne _) hat'] at hstands
    refine ⟨_, _, after, _, hstands, hcallee, h.parentheses, ⟨[], ?_⟩, hlast, hread⟩
    simp [extend, htokens, hcurrent]
  · -- What is called next does not matter, as all tokens are kept.
    have hloose := Loose.of_current_eq_empty hcurrent text
    obtain ⟨u, mid, hu, hgrows, hsame, _, hmid, hdot⟩ := hloose.read_joining (by decide) hlaid
    have hdefault : n.text ≠ "default" := by
      have hfree := n.free
      rintro heq
      rw [heq] at hfree
      exact absurd hfree (by decide)
    obtain ⟨t, after, ht, hgrows', hsame', _, hafter, hword⟩ := hu.read_word (fun _ => hdefault) hmid
    have hstands := ht.stands hafter (by decide)
    obtain ⟨last, hlast⟩ :=
      (hgrows.trans (hgrows'.trans (Grows.endToken ht.plainly))).tokens
    refine ⟨t, t.endToken, after, name, hstands, h.callee, ?_, ⟨others ++ last ++ ["("], ?_⟩, hafter,
      hdot.trans hword⟩
    · rw [parentheses_endToken, hsame', hsame, h.parentheses]
    · rw [← hlast, htokens]
      simp

/-- Calls are read up to the semicolon. -/
theorem AfterCall.read_moreCalls (h : AfterCall name s text) (calls : List (Name × Enclosed))
    (hlaid : Laid (moreCalls calls ++ .mark ';' :: more) text rest) : ∃ tokens after,
      Reading.ofTokens .methodBody tokens = .nothing ∧ Laid more after rest ∧
        s.read text = some (⟨tokens, .semicolon⟩, after) := by
  induction calls generalizing name s text with
  | nil =>
      rcases h.tokens with ⟨htokens, hcurrent, hapart⟩ | ⟨hcurrent, others, htokens⟩
      · have hne : s.current ≠ "" := by rw [hcurrent]; exact h.callee.ne_empty
        have hat : s.atAnnotation = false := by
          obtain ⟨c, cs, hname, _, hc⟩ := h.callee.begins
          simp [ atAnnotation, hcurrent, hname, hc]
        have hzero : s.endToken.parentheses = 0 := by rw [parentheses_endToken, h.parentheses]
        obtain ⟨after, hafter, hread⟩ := (Stands.of_apart hat hapart).read_semicolon hzero hlaid
        refine ⟨_, after, ?_, hafter, hread⟩
        rw [endToken_of_current_ne_empty hne hat, htokens, hcurrent]
        exact Reading.ofTokens_name h.callee.free h.callee.not_head?_angle
      · obtain ⟨after, hafter, hread⟩ :=
          (Stands.of_current_eq_empty hcurrent text).read_semicolon h.parentheses hlaid
        refine ⟨_, after, ?_, hafter, hread⟩
        rw [htokens]
        exact Reading.ofTokens_call h.callee.free h.callee.not_head?_angle others
  | cons call calls ih =>
      obtain ⟨n, e⟩ := call
      obtain ⟨c, others, hc, hnext⟩ : ∃ c others, c ∈ ['.', ';'] ∧
          moreCalls calls ++ .mark ';' :: more = .mark c :: others := by
        cases calls with
        | nil => exact ⟨';', more, by decide, rfl⟩
        | cons next calls => exact ⟨'.', _, by decide, rfl⟩
      have hsplit : moreCalls ((n, e) :: calls) ++ .mark ';' :: more = .mark '.' ::
          .word n.toWord :: .mark '(' :: (e.lexemes ++ .mark ')' :: .mark c :: others) := by
        simp [moreCalls, Enclosed.group, hnext]
      rw [hsplit] at hlaid
      obtain ⟨t, k, mid, name', ht, hcallee, hzero, htokens, hmid, hread⟩ := h.read_name n hlaid
      obtain ⟨u, mid', hu, hmid', hread'⟩ := ht.read_arguments hcallee hzero htokens e hc hmid
      rw [← hnext] at hmid'
      obtain ⟨tokens, after, hnothing, hafter, hend⟩ := ih hu hmid'
      exact ⟨tokens, after, hnothing, hafter, hread.trans (hread'.trans hend)⟩

end OpenStatement

/-- A call is a statement that declares nothing. -/
theorem scan_call (c : Call) {more : List Lexeme} {text rest : List Char}
    (hlaid : Laid (c.lexemes ++ .mark ';' :: more) text rest) : ∃ tokens after,
      Reading.ofTokens .methodBody tokens = .nothing ∧ Laid more after rest ∧
        scan text = some (⟨tokens, .semicolon⟩, after) := by
  obtain ⟨d, others, hd, hnext⟩ : ∃ d others, d ∈ ['.', ';'] ∧
      moreCalls c.more ++ .mark ';' :: more = .mark d :: others := by
    cases c.more with
    | nil => exact ⟨';', more, by decide, rfl⟩
    | cons next calls => exact ⟨'.', _, by decide, rfl⟩
  have hsplit : c.lexemes ++ .mark ';' :: more = c.name.lexemes ++
      .mark '(' :: (c.arguments.lexemes ++ .mark ')' :: .mark d :: others) := by
    simp [Call.lexemes, Enclosed.group, hnext]
  rw [hsplit] at hlaid
  obtain ⟨t, mid, ht, hmid, hscan⟩ := (takes_qualifiedName c.name (k := start) rfl).scan_eq
    (by simp [Lexeme.Follows]) (by simp [QualifiedName.lexemes]) (by simp) hlaid
  obtain ⟨u, mid', hu, hmid', hread⟩ := ht.read_arguments (.text_qualifiedName c.name) rfl
    ⟨[], rfl⟩ c.arguments hd hmid
  rw [← hnext] at hmid'
  obtain ⟨tokens, after, hnothing, hafter, hend⟩ := hu.read_moreCalls c.more hmid'
  exact ⟨tokens, after, hnothing, hafter, hscan.trans (hread.trans hend)⟩

end JavaOutline
