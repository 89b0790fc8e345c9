import JavaOutline.Proofs.Grammar.Headers
import JavaOutline.Proofs.Grammar.Locals
import JavaOutline.Proofs.Grammar.Parameters
import JavaOutline.Proofs.Grammar.TypeParameters
import JavaOutline.Proofs.Lexical.Ends
import JavaOutline.Proofs.Restoring
import Mathlib.Data.List.Forall2

/-!
# JavaOutline.Proofs.Grammar.Signatures

Methods and constructors with all that may be written of them: modifiers,
type parameters, parameters of every form and the types that are thrown.
Whatever the parameters are read as, the method is added to the type with
its name, type and modifiers, and reading goes on after it; which lists of
parameters are read as they are written is said by two conditions
(`Signature.declares_parameters`).
-/

namespace JavaOutline

open Text OpenStatement

/-! ## Signatures -/

/-- The word `throws`. -/
def throwsWord : Word := ⟨"throws", by decide⟩

/-- The lexemes of class types with `throws` before them. -/
def thrownLexemes : List ClassType → List Lexeme
  | [] => []
  | t :: ts => .word throwsWord :: classTypeLexemes t ts

/-- The tokens of class types with `throws` before them. -/
def thrownTokens : List ClassType → List String
  | [] => []
  | t :: ts => ["throws", written (classTypeLexemes t ts)]

/-- What is written of a method or constructor up to its body or
semicolon. -/
structure Signature where
  modifiers : List Modifier
  typeParameters : Option TypeParameters
  /-- The type of what is returned, which constructors lack. -/
  type : Option WrittenType
  name : Name
  parameters : List FormalParameter
  thrown : List ClassType
  hasBody : Bool
  complete : type = none → hasBody = true

namespace Signature

/-- The lexemes of type parameters, if there are any. -/
def typeParameterLexemes (h : Signature) : List Lexeme :=
  (h.typeParameters.map TypeParameters.lexemes).getD []

/-- The lexemes of a type, if there is one, and of the name. -/
def memberLexemes (h : Signature) : List Lexeme :=
  (h.type.map WrittenType.lexemes).getD [] ++ [.word h.name.toWord]

/-- The lexemes of a signature before its parenthesis. -/
def namedLexemes (h : Signature) : List Lexeme :=
  modifierLexemes h.modifiers ++ (h.typeParameterLexemes ++ h.memberLexemes)

/-- The lexemes of a signature up to its parenthesis. -/
def openingLexemes (h : Signature) : List Lexeme := h.namedLexemes ++ [.mark '(']

/-- The lexemes of a signature from its closing parenthesis on. -/
def closingLexemes (h : Signature) : List Lexeme :=
  .mark ')' :: (thrownLexemes h.thrown ++ [.mark (if h.hasBody then '\x7b' else ';')])

/-- The lexemes of a signature, with the brace or semicolon after it. -/
def lexemes (h : Signature) : List Lexeme :=
  h.openingLexemes ++ (formalLexemes h.parameters ++ h.closingLexemes)

/-- The tokens of a signature before its parenthesis. -/
def namedTokens (h : Signature) (gap : List Char) : List String :=
  h.modifiers.map Modifier.text ++ ((h.typeParameters.map fun t => t.tokens gap).getD [] ++
    ((h.type.map WrittenType.text).toList ++ [h.name.text]))

/-- The tokens of a signature, those of the parameters being `parameters`. -/
def tokens (h : Signature) (gap : List Char) (parameters : List String) : List String :=
  h.namedTokens gap ++ "(" :: (parameters ++ ")" :: thrownTokens h.thrown)

/-- The statement of a signature after its parenthesis and some tokens of its
parameters. -/
def opened (h : Signature) (gap : List Char) (tokens : List String) : OpenStatement :=
  (start.takeAll (h.namedTokens gap)).openParenthesis.takeAll tokens

/-- The method of a signature. -/
def method (h : Signature) (parameters locals : List Variable) : Method where
  name := h.name.text
  type := h.type.map WrittenType.text
  isFinal := (modifiersOf h.modifiers).isFinal
  access := (modifiersOf h.modifiers).access
  isStatic := (modifiersOf h.modifiers).isStatic
  parameters
  locals

/-- How the statement of a signature ends, `next` coming after its last
mark. -/
def ending (h : Signature) (next : List Char) : Ending (List Char) :=
  if h.hasBody then .block next (afterBracket '\x7b' '\x7d' 0 next) else .semicolon

/-- Where the text goes on after a signature, `next` coming after its last
mark. -/
def resume (h : Signature) (next : List Char) : List Char :=
  if h.hasBody then afterBracket '\x7b' '\x7d' 0 next else next

/-- Where reading goes on after a signature: after the brace that closes the
body, or after the semicolon. -/
def Resumes (h : Signature) (more : List Lexeme) (rest after : List Char) : Prop :=
  if h.hasBody then ∃ body, Laid more body rest ∧ after = afterBracket '\x7b' '\x7d' 0 body
  else Laid more after rest

section

variable (h : Signature) (gap : List Char) (tokens : List String)

@[simp] theorem current_opened : (h.opened gap tokens).current = "" := rfl

@[simp] theorem angles_opened : (h.opened gap tokens).angles = 0 := rfl

@[simp] theorem parentheses_opened : (h.opened gap tokens).parentheses = 1 := rfl

@[simp] theorem tokens_opened :
    (h.opened gap tokens).tokens = h.namedTokens gap ++ "(" :: tokens := by
  simp [opened, openParenthesis]

theorem takeAll_opened (others : List String) :
    (h.opened gap tokens).takeAll others = h.opened gap (tokens ++ others) := by
  simp [opened, takeAll]

theorem ending_eq_or (next : List Char) :
    h.ending next = .semicolon ∨ ∃ body, h.ending next = .block body (h.resume next) := by
  rw [ending, resume]
  cases h.hasBody with
  | false => exact .inl rfl
  | true => exact .inr ⟨next, rfl⟩

theorem resumes_resume {more : List Lexeme} {next rest : List Char} (hnext : Laid more next rest) :
    h.Resumes more rest (h.resume next) := by
  rw [Resumes, resume]
  cases h.hasBody with
  | false => exact hnext
  | true => exact ⟨next, hnext, rfl⟩

/-- The parenthesis of a signature with a type comes after two tokens. -/
theorem mem_drop_opened : h.type = none ∨ "(" ∈ (h.opened gap tokens).tokens.drop 2 := by
  cases htype : h.type with
  | none => exact .inl rfl
  | some type =>
      have hlength : 2 ≤ (h.namedTokens gap).length := by
        simp [namedTokens, htype]
        omega
      rw [tokens_opened, List.drop_append_of_le_length hlength]
      exact .inr (by simp)

end

end Signature

/-! ## Up to the parenthesis -/

variable {s k : OpenStatement} {l : Lexeme} {more : List Lexeme} {text rest : List Char}

/-- The words before type parameters. -/
theorem Modifier.mayPrecedeTypeParameters (m : Modifier) :
    JavaOutline.mayPrecedeTypeParameters m.text = true := by
  have hall : ∀ word ∈ modifierWords, JavaOutline.mayPrecedeTypeParameters word = true := by decide
  exact hall m.text (List.contains_iff_mem.1 m.isModifier)

/-- Modifiers are read word by word, also before type parameters. -/
theorem read_modifiers (ms : List Modifier) (hs : Stands s k text)
    (hlaid : Laid (modifierLexemes ms ++ l :: more) text rest) : ∃ t after,
      Stands t (k.takeAll (ms.map Modifier.text)) after ∧
        (ms = [] ∧ t = s ∧ after = text ∨ ms ≠ [] ∧ mayPrecedeTypeParameters t.current = true) ∧
          Laid (l :: more) after rest ∧ s.read text = t.read after := by
  induction ms generalizing s k text with
  | nil =>
      have hnone : k.takeAll ([].map Modifier.text) = k := by simp [takeAll]
      exact ⟨s, text, by rwa [hnone], .inl ⟨rfl, rfl, rfl⟩, hlaid, rfl⟩
  | cons m ms ih =>
      obtain ⟨mid, hfits, hmid, hword⟩ := hs.read_word hlaid
      have hcurrent : (k.extend m.word.text).current = m.text := by
        simp [extend, hs.current_eq, Modifier.word]
      obtain ⟨t, after, ht, hlast, hafter, hread⟩ :=
        ih (m.word.stands_extend hs.current_eq hfits) hmid
      have htokens : (k.take m.word.text).takeAll (ms.map Modifier.text) =
          k.takeAll ((m :: ms).map Modifier.text) := by
        simp [take, takeAll, Modifier.word]
      have hmodifier : mayPrecedeTypeParameters t.current = true := by
        rcases hlast with ⟨_, rfl, _⟩ | ⟨_, hlast⟩
        · rw [hcurrent]
          exact m.mayPrecedeTypeParameters
        · exact hlast
      exact ⟨t, after, htokens ▸ ht, .inr ⟨by simp, hmodifier⟩, hafter, hword.trans hread⟩

/-- The type and the name of a member are two tokens. -/
theorem takes_memberLexemes (h : Signature) (hangles : k.angles = 0) :
    Takes Lexeme.Follows k h.memberLexemes
      (k.takeAll ((h.type.map WrittenType.text).toList ++ [h.name.text])) := by
  cases htype : h.type with
  | none => simpa [Signature.memberLexemes, htype, takeAll, take] using takes_word k h.name.toWord
  | some type =>
      have hall := (takes_type type hangles).append (takes_word _ h.name.toWord)
        (fun _ _ hl => hl) (by intro y hy; cases hy; trivial)
      simpa [Signature.memberLexemes, htype, takeAll, take] using hall

theorem Signature.memberLexemes_head? (h : Signature) :
    ∃ w ls, h.memberLexemes = .word w :: ls := by
  cases htype : h.type with
  | none => exact ⟨h.name.toWord, [], by simp [memberLexemes, htype]⟩
  | some type =>
      refine ⟨type.name.first.toWord, type.tail ++ arrayBrackets type.dimensions ++
        [.word h.name.toWord], ?_⟩
      simp [memberLexemes, htype, WrittenType.lexemes, ClassType.lexemes]

/-- A signature begins with a word or with type parameters. -/
theorem Signature.openingLexemes_eq (h : Signature) :
    (∃ w ls, h.openingLexemes = .word w :: ls) ∨ ∃ types, h.modifiers = [] ∧
      h.typeParameters = some types ∧
        h.openingLexemes = types.lexemes ++ (h.memberLexemes ++ [.mark '(']) := by
  obtain ⟨w, ls, hmember⟩ := h.memberLexemes_head?
  cases hmodifiers : h.modifiers with
  | cons m ms =>
      refine .inl ⟨m.word, modifierLexemes ms ++ (h.typeParameterLexemes ++ h.memberLexemes) ++
        [.mark '('], ?_⟩
      simp [openingLexemes, namedLexemes, hmodifiers, modifierLexemes]
  | nil =>
      cases htypes : h.typeParameters with
      | some types =>
          refine .inr ⟨types, rfl, rfl, ?_⟩
          simp [openingLexemes, namedLexemes, hmodifiers, modifierLexemes, typeParameterLexemes,
            htypes]
      | none =>
          refine .inl ⟨w, ls ++ [.mark '('], ?_⟩
          simp [openingLexemes, namedLexemes, hmodifiers, modifierLexemes, typeParameterLexemes,
            htypes, hmember]

/-- A signature does not begin with a slash. -/
theorem Signature.openingLexemes_head? (h : Signature) :
    ∃ first others, h.openingLexemes = first :: others ∧ first ≠ .mark '/' := by
  rcases h.openingLexemes_eq with ⟨w, ls, hword⟩ | ⟨types, _, _, hlist⟩
  · exact ⟨.word w, ls, hword, by simp⟩
  · exact ⟨.mark '<', _, hlist, by simp⟩

/-- The blank that is kept after the bracket of type parameters. -/
def Signature.gap (h : Signature) (text : List Char) : List Char :=
  if h.modifiers.isEmpty then gapAfterAngle start text else []

theorem Signature.gap_eq_blank (h : Signature) (text : List Char) :
    ∀ c ∈ h.gap text, c = ' ' := by
  rw [gap]
  split
  · exact gapAfterAngle_eq_blank start text
  · simp

/-- After a modifier no blank is kept. -/
theorem Signature.gapAfterAngle_eq_gap (h : Signature) {t : OpenStatement} {after : List Char}
    (hlast : h.modifiers = [] ∧ t = start ∧ after = text ∨
      h.modifiers ≠ [] ∧ mayPrecedeTypeParameters t.current = true) :
    gapAfterAngle t after = h.gap text := by
  rcases hlast with ⟨hnone, rfl, rfl⟩ | ⟨hsome, hmodifier⟩
  · simp [gap, hnone]
  · have hcurrent : t.current ≠ "" := by
      intro hempty
      rw [hempty] at hmodifier
      exact absurd hmodifier (by decide)
    rw [gapAfterAngle_of_current_ne_empty hcurrent, gap, if_neg (by simp [hsome])]

/-- Modifiers and type parameters are read before the member. -/
theorem Signature.read_beforeMember (h : Signature)
    (hlaid : Laid (modifierLexemes h.modifiers ++ (h.typeParameterLexemes ++ (h.memberLexemes ++
      more))) text rest) : ∃ t after,
      Stands t (start.takeAll (h.modifiers.map Modifier.text ++
        (h.typeParameters.map fun t => t.tokens (h.gap text)).getD [])) after ∧
        Laid (h.memberLexemes ++ more) after rest ∧ start.read text = t.read after := by
  obtain ⟨w, ls, hmember⟩ := h.memberLexemes_head?
  cases htypes : h.typeParameters with
  | none =>
      rw [typeParameterLexemes, htypes, hmember] at hlaid
      obtain ⟨t, after, ht, _, hafter, hread⟩ :=
        read_modifiers h.modifiers (stands_start text) hlaid
      refine ⟨t, after, by simpa using ht, ?_, hread⟩
      rw [hmember]
      exact hafter
  | some types =>
      rw [typeParameterLexemes, htypes] at hlaid
      obtain ⟨t, mid, ht, hlast, hmid, hread⟩ :=
        read_modifiers h.modifiers (stands_start text) hlaid
      have hsplit : types.lexemes ++ (h.memberLexemes ++ more) =
          types.lexemes ++ .word w :: (ls ++ more) := by
        rw [hmember]
        rfl
      have hmid' : Laid (types.lexemes ++ .word w :: (ls ++ more)) mid rest := hsplit ▸ hmid
      have hbegins : t.current = "" ∨ mayPrecedeTypeParameters t.current = true := by
        rcases hlast with ⟨_, rfl, _⟩ | ⟨_, hlast⟩
        · exact .inl rfl
        · exact .inr hlast
      obtain ⟨after, hafter, hread'⟩ :=
        ht.read_typeParameters rfl hbegins types (l := .word w) trivial hmid'
      rw [h.gapAfterAngle_eq_gap hlast] at hread'
      refine ⟨_, after, .of_current_eq_empty rfl after, ?_, ?_⟩
      · rw [hmember]
        exact hafter
      · rw [hread, hread']
        simp [takeAll]

/-- A signature is read up to its parenthesis. -/
theorem Signature.read_opening (h : Signature)
    (hlaid : Laid (h.openingLexemes ++ more) text rest) : ∃ run, AllBlank run ∧
      start.read text = (h.opened (h.gap text) []).read (run ++ past h.openingLexemes text) := by
  have hexact := hlaid.exact (by simp [openingLexemes])
  generalize past h.openingLexemes text = next at hexact ⊢
  rw [openingLexemes, namedLexemes, List.append_assoc, List.append_assoc] at hexact
  obtain ⟨t, mid, ht, hmid, hread⟩ := h.read_beforeMember hexact
  obtain ⟨u, after, hu, hafter, hmember⟩ := takes_memberLexemes h rfl t (.mark '(') [] mid
    next ht (by simp [Lexeme.Follows]) hmid
  obtain ⟨inner, ⟨run, hrun, hinner⟩, hopen⟩ := hu.read_stop hafter (by decide)
  subst hinner
  refine ⟨run, hrun, ?_⟩
  rw [hread, hmember, hopen, read_openParenthesis hu.current_eq]
  simp [takeAll, namedTokens, opened]

/-- Blanks before a signature are passed over. -/
theorem Signature.scan_eq_read (h : Signature)
    (hlaid : Laid (h.openingLexemes ++ more) text rest) :
    Laid (h.openingLexemes ++ more) (skipBlanks text) rest ∧
      scan text = start.read (skipBlanks text) := by
  obtain ⟨first, others, hfirst, hslash⟩ := h.openingLexemes_head?
  rw [hfirst] at hlaid ⊢
  exact ⟨hlaid.of_skipBlanks, scan_eq_read_skipBlanks hslash hlaid⟩

theorem Signature.past_skipBlanks (h : Signature) (text : List Char) :
    past h.openingLexemes (skipBlanks text) = past h.openingLexemes text :=
  JavaOutline.past_skipBlanks (by simp [openingLexemes]) text

/-- A signature is scanned up to its parenthesis. -/
theorem Signature.scan_opening (h : Signature)
    (hlaid : Laid (h.openingLexemes ++ more) text rest) : ∃ run, AllBlank run ∧
      scan text =
        (h.opened (h.gap (skipBlanks text)) []).read (run ++ past h.openingLexemes text) := by
  obtain ⟨hskipped, hscan⟩ := h.scan_eq_read hlaid
  rw [hscan, ← h.past_skipBlanks]
  exact h.read_opening hskipped

/-! ## From the closing parenthesis on -/

theorem takes_thrownLexemes (thrown : List ClassType) (hparentheses : k.parentheses = 0)
    (hangles : k.angles = 0) :
    Takes Lexeme.Follows k (thrownLexemes thrown) (k.takeAll (thrownTokens thrown)) := by
  cases thrown with
  | nil => simpa [thrownLexemes, thrownTokens, takeAll] using Takes.nil
  | cons t ts =>
      have hlist := (takes_word k throwsWord).append
        (takes_classTypes t ts (k := k.take throwsWord.text) hparentheses hangles)
        (fun _ _ hl => hl) (by intro y hy; cases hy; trivial)
      simpa [thrownLexemes, thrownTokens, takeAll, take, throwsWord] using hlist

/-- The closing parenthesis of a signature stays. -/
theorem Signature.closeParenthesis_eq (h : Signature)
    (hopen : h.type = none ∨ "(" ∈ k.tokens.drop 2)
    (hlaid : Laid (thrownLexemes h.thrown ++
      .mark (if h.hasBody then '\x7b' else ';') :: more) text rest) :
    k.closeParenthesis (skipBlanks text) = k.closed := by
  apply closeParenthesis_eq_closed
  rcases hopen with hnone | hopen
  · left
    cases hthrown : h.thrown with
    | nil =>
        rw [hthrown, h.complete hnone] at hlaid
        have hhead := hlaid.head?_skipBlanks
        simpa [opensBody] using .inl hhead
    | cons t ts =>
        rw [hthrown] at hlaid
        obtain ⟨after, htext, _, _⟩ := hlaid.skipBlanks
        rw [htext]
        simp [opensBody, Lexeme.chars, throwsWord]
  · exact .inr (.inr hopen)

/-- The mark at the end of a signature. -/
def Signature.lastMark (h : Signature) : Char := if h.hasBody then '\x7b' else ';'

/-- A signature is read from its closing parenthesis up to its last mark. -/
theorem Signature.read_thrown (h : Signature) (hs : Stands s k text)
    (hparentheses : k.parentheses = 1) (hangles : k.angles = 0)
    (hopen : h.type = none ∨ "(" ∈ k.tokens.drop 2)
    (hlaid : Laid (h.closingLexemes ++ more) text rest) : ∃ t last,
      Stands t (k.closed.takeAll (thrownTokens h.thrown)) last ∧
        Laid (.mark h.lastMark :: more) last rest ∧ s.read text = t.read last := by
  rw [closingLexemes, List.cons_append, List.append_assoc, List.singleton_append] at hlaid
  obtain ⟨mid, hmid, hstop⟩ := hs.read_stop hlaid (by decide)
  rw [read_closeParenthesis hs.current_eq, h.closeParenthesis_eq hopen hmid] at hstop
  have hstart : Laid (thrownLexemes h.thrown ++ .mark h.lastMark :: more) (skipBlanks mid)
      rest := by
    cases hthrown : h.thrown <;> (rw [hthrown] at hmid; exact hmid.of_skipBlanks)
  have hempty : k.closed.current = "" := hs.current_eq
  have hzero : k.closed.parentheses = 0 := by simp [closed, hparentheses]
  have hfollows : (Lexeme.mark h.lastMark).Follows := by
    rw [lastMark]
    cases h.hasBody <;> simp [Lexeme.Follows]
  obtain ⟨t, last, ht, hlast, hthrown⟩ := takes_thrownLexemes h.thrown hzero hangles
    k.closed _ _ _ _ (.of_current_eq_empty hempty _) hfollows hstart
  exact ⟨t, last, ht, hlast, hstop.trans hthrown⟩

/-- The tokens of a signature with a body are more than a lone name. -/
theorem isLoneName_closed (thrown : List ClassType) (hnamed : k.tokens.length ≠ 0) :
    (k.closed.takeAll (thrownTokens thrown)).isLoneName = false := by
  have hlength : (k.tokens ++ ")" :: thrownTokens thrown).length ≠ 1 := by
    simp
    omega
  have htokens : (k.closed.takeAll (thrownTokens thrown)).tokens =
      k.tokens ++ ")" :: thrownTokens thrown := by simp [closed]
  rw [isLoneName, htokens]
  simp only [beq_eq_false_iff_ne.2 hlength, Bool.false_and]

/-- A signature is read from its closing parenthesis on. -/
theorem Signature.read_closing (h : Signature) (hs : Stands s k text)
    (hparentheses : k.parentheses = 1) (hangles : k.angles = 0)
    (hopen : h.type = none ∨ "(" ∈ k.tokens.drop 2)
    (hnamed : k.tokens.length ≠ 0) (hlaid : Laid (h.closingLexemes ++ more) text rest) :
    ∃ next, Laid more next rest ∧ s.read text =
      some (⟨k.tokens ++ ")" :: thrownTokens h.thrown, h.ending next⟩, h.resume next) := by
  obtain ⟨t, last, ht, hlast, hthrown⟩ := h.read_thrown hs hparentheses hangles hopen hlaid
  have hzero : (k.closed.takeAll (thrownTokens h.thrown)).parentheses = 0 := by
    simp [closed, takeAll, hparentheses]
  have htokens : (k.closed.takeAll (thrownTokens h.thrown)).tokens =
      k.tokens ++ ")" :: thrownTokens h.thrown := by
    simp [closed]
  cases hbody : h.hasBody with
  | false =>
      rw [lastMark, hbody] at hlast
      obtain ⟨after, hafter, hend⟩ := ht.read_semicolon hzero hlast
      exact ⟨after, hafter, by rw [hthrown, hend, htokens, ending, resume, hbody]; rfl⟩
  | true =>
      rw [lastMark, hbody] at hlast
      obtain ⟨body, hblock, hend⟩ := ht.read_block hzero (isLoneName_closed _ hnamed) hlast
      exact ⟨body, hblock, by rw [hthrown, hend, htokens, ending, resume, hbody]; rfl⟩

/-- The tokens that are read of a signature at the beginning of a text. -/
def Signature.tokensIn (h : Signature) (text : List Char) : List String :=
  h.tokens (h.gap (skipBlanks text))
    (formalTokens false h.parameters (past h.openingLexemes text))

/-- A signature is read as one statement. -/
theorem Signature.read_eq (h : Signature) (hlaid : Laid (h.lexemes ++ more) text rest) :
    ∃ next, Laid more next rest ∧ start.read text = some (⟨h.tokens (h.gap text)
      (formalTokens false h.parameters (past h.openingLexemes text)), h.ending next⟩,
        h.resume next) := by
  rw [lexemes, List.append_assoc, List.append_assoc] at hlaid
  obtain ⟨run, hrun, hopening⟩ := h.read_opening hlaid
  have hinside := hlaid.past.blanks_append hrun
  generalize h.gap text = gap at hopening ⊢
  generalize past h.openingLexemes text = next at hopening hinside ⊢
  have hfirst : Before false (h.opened gap []) (h.opened gap []) (run ++ next) :=
    Stands.of_current_eq_empty rfl _
  obtain ⟨t, mid, ht, hmid, hread⟩ := read_formals h.parameters (l := .mark ')') hfirst (by simp)
    rfl (by simp) (by simp [Lexeme.Follows]) hinside
  rw [h.takeAll_opened, List.nil_append,
    formalTokens_blanks_append h.parameters hrun (by simp)] at ht
  obtain ⟨last, hlast, hclosing⟩ :=
    h.read_closing ht rfl rfl (h.mem_drop_opened gap _) (by simp) hmid
  refine ⟨last, hlast, ?_⟩
  rw [hopening, hread, hclosing, h.tokens_opened]
  simp [tokens]

/-- **A signature is one statement.** -/
theorem Signature.scan_eq (h : Signature) (hlaid : Laid (h.lexemes ++ more) text rest) :
    ∃ next, Laid more next rest ∧
      scan text = some (⟨h.tokensIn text, h.ending next⟩, h.resume next) := by
  rw [lexemes, List.append_assoc] at hlaid
  obtain ⟨hskipped, hscan⟩ := h.scan_eq_read hlaid
  rw [← List.append_assoc, ← lexemes] at hskipped
  rw [hscan, tokensIn, ← h.past_skipBlanks]
  exact h.read_eq hskipped

/-- What comes after the last mark of a signature is an end of the text. -/
theorem Signature.suffix_of_scan (h : Signature) {tokens : List String} {next : List Char}
    (hscan : scan text = some (⟨tokens, h.ending next⟩, h.resume next)) : next <:+ text := by
  cases hbody : h.hasBody with
  | false => simpa [resume, hbody] using scan_suffix hscan
  | true =>
      have hblock : h.ending next = .block next (afterBracket '\x7b' '\x7d' 0 next) := by
        rw [ending, hbody]
        rfl
      exact (List.suffix_cons _ next).trans (block_suffix_of_scan hscan hblock)

/-- A signature ends in its last mark. -/
theorem Signature.lexemes_eq (h : Signature) : h.lexemes = (h.openingLexemes ++
    (formalLexemes h.parameters ++ .mark ')' :: thrownLexemes h.thrown)) ++
      [.mark h.lastMark] := by
  simp [lexemes, closingLexemes, lastMark]

/-- The text goes on right after the brace or semicolon of a signature. -/
theorem Signature.scan_eq_past (h : Signature) {next : List Char} (hlaid : Laid h.lexemes text rest)
    (hnext : past h.lexemes text = next) :
    scan text = some (⟨h.tokensIn text, h.ending next⟩, h.resume next) := by
  have hlaid' : Laid (h.lexemes ++ []) text rest := by simpa using hlaid
  have hexact := hlaid'.exact (by simp [lexemes, openingLexemes])
  have hexact' : Laid (h.lexemes ++ []) text (past h.lexemes text) := by simpa using hexact
  obtain ⟨after, hafter, hscan⟩ := h.scan_eq hexact'
  rw [h.lexemes_eq] at hexact hafter hnext
  rw [hexact.eq_past hafter List.suffix_rfl (h.suffix_of_scan hscan), hnext] at hscan
  exact hscan

/-! ## What a signature declares -/

theorem Signature.declare_eq (h : Signature) (tokens : List String) :
    (modifiersOf h.modifiers).declare ((h.type.map WrittenType.text).toList ++ h.name.text ::
      "(" :: tokens) = .method (h.method (JavaOutline.parameters false tokens) []) := by
  cases htype : h.type with
  | none =>
      simp [Modifiers.declare, Modifiers.member, Member.declare, Word.declare_eq, method, htype]
  | some type =>
      simp [Modifiers.declare, Modifiers.member, Member.declare, Word.declare_eq, method, htype,
        h.name.ne_openParenthesis]

/-- The type, the name and the parenthesis make a method. -/
theorem Signature.reading_member (h : Signature) (first : Bool) (tokens : List String) :
    Reading.ofTokensAfter .typeBody (modifiersOf h.modifiers) first
      ((h.type.map WrittenType.text).toList ++ h.name.text :: "(" :: tokens) =
        .declaring (.method (h.method (JavaOutline.parameters false tokens) [])) := by
  have hdeclare := h.declare_eq tokens
  cases htype : h.type with
  | none =>
      rw [htype] at hdeclare
      simp only [Option.map_none, Option.toList_none, List.nil_append] at hdeclare ⊢
      rw [Reading.ofTokensAfter_member h.name.free h.name.not_head?_angle (by simp),
        Reading.member, hdeclare]
      · rfl
      · simp
  | some type =>
      rw [htype] at hdeclare
      simp only [Option.map_some, Option.toList_some, List.singleton_append] at hdeclare ⊢
      rw [Reading.ofTokensAfter_member type.free type.not_head?_angle (by simp),
        Reading.member, hdeclare]
      · rfl
      · simp

/-- In the body of a type, a signature declares its method. -/
theorem Signature.reading (h : Signature) {gap : List Char} (hgap : ∀ c ∈ gap, c = ' ')
    (parameterTokens : List String) :
    Reading.ofTokens .typeBody (h.tokens gap parameterTokens) = .declaring (.method
      (h.method (JavaOutline.parameters false
        (parameterTokens ++ ")" :: thrownTokens h.thrown)) [])) := by
  have htokens : h.tokens gap parameterTokens = h.modifiers.map Modifier.text ++
      ((h.typeParameters.map fun t => t.tokens gap).getD [] ++
        ((h.type.map WrittenType.text).toList ++ h.name.text ::
          "(" :: (parameterTokens ++ ")" :: thrownTokens h.thrown))) := by
    simp [tokens, namedTokens]
  rw [htokens, Reading.ofTokens, Reading.ofTokensAfter_modifiers _ _ _ _ _ (by simp), ← modifiersOf]
  cases h.typeParameters with
  | none => exact h.reading_member _ _
  | some t =>
      rw [Option.map_some, Option.getD_some, t.ofTokensAfter_eq hgap]
      exact h.reading_member _ _

/-- A signature that goes on like another is a statement that ends where that one
does, and has the same parameters. -/
theorem Signature.scan_front {g h : Signature} {front : List Lexeme} {x start : List Char}
    (hopening : g.openingLexemes = front ++ h.openingLexemes)
    (hparameters : g.parameters = h.parameters) (hthrown : g.thrown = h.thrown)
    (hbody : g.hasBody = h.hasBody) (hx : Laid front x start) (hlaid : Laid h.lexemes start rest) :
    scan x = some (⟨g.tokensIn x, h.ending (past h.lexemes start)⟩,
      h.resume (past h.lexemes start)) ∧
    Reading.ofTokens .typeBody (g.tokensIn x) = .declaring (.method (g.method
      (JavaOutline.parameters false (formalTokens false h.parameters
        (past h.openingLexemes start) ++ ")" :: thrownTokens h.thrown)) [])) := by
  have hlexemes : g.lexemes = front ++ h.lexemes := by
    rw [lexemes, hopening, hparameters, closingLexemes, hthrown, hbody, lexemes, closingLexemes,
      List.append_assoc]
  have hopen : h.openingLexemes ≠ [] := by simp [openingLexemes]
  have hwhole : h.lexemes ≠ [] := by simp [lexemes, hopen]
  have hnext := hx.past_append hwhole
  have hinside := hx.past_append hopen
  rw [← hlexemes] at hnext
  rw [← hopening] at hinside
  have hall : Laid g.lexemes x rest := by
    rw [hlexemes]
    exact hx.trans hlaid
  have hscan := g.scan_eq_past hall hnext
  rw [ending, resume, hbody, ← ending, ← resume] at hscan
  refine ⟨hscan, ?_⟩
  rw [tokensIn, hinside, hparameters, ← hthrown]
  exact g.reading (g.gap_eq_blank _) _

/-- A method is added when its statement is read, and then its body. -/
theorem Progress.read_addMethod {p : Progress} (hlevel : p.nesting.level = .typeBody)
    (withLocals : Bool) {tokens : List String} {ending : Ending (List Char)} {method : Method}
    {after : List Char} (hscan : scan text = some (⟨tokens, ending⟩, after))
    (hending : ending = .semicolon ∨ ∃ body, ending = .block body after)
    (hmethod : Reading.ofTokens .typeBody tokens = .declaring (.method method)) :
    ∃ q locals, p.Keeps q ∧ p.KeepsMembers q ∧ p.read withLocals text =
      (q.mapRecord fun record => record.addMethod { method with locals }).read withLocals
        after := by
  rw [Progress.read_of_scan hscan, hlevel, hmethod]
  rcases hending with rfl | ⟨body, rfl⟩
  · exact ⟨p, method.locals, .refl p, .refl p, rfl⟩
  cases withLocals with
  | false =>
      have hlevel' : (p.declare (.method method)).entersBlock tokens = false := by
        simp [declare, entersBlock, mapRecord, hlevel]
      refine ⟨p, method.locals, .refl p, .refl p, ?_⟩
      simp only [Reading.declaring, List.foldl_nil, readAfter, hlevel', Bool.false_eq_true,
        if_false]
      rfl
  | true =>
      obtain ⟨n, frame, hpush, hkeeps, hmembers⟩ := exists_push_openMethod true p after body
      refine ⟨_, frame.record.fieldVariables, hkeeps, hmembers, ?_⟩
      rw [← closeMethod_of_push hpush]
      rfl

/-! ## Brackets of types and of names -/

/-- The parameter with the brackets of its name written after its type. -/
def FormalParameter.bracketsToType (p : FormalParameter) : FormalParameter :=
  match p.form with
  | .named n =>
    { p with type := { p.type with dimensions := p.type.dimensions + n }, form := .named 0 }
  | .variableArguments => p

theorem arrayBrackets_add (m n : Nat) :
    arrayBrackets (m + n) = arrayBrackets m ++ arrayBrackets n := by
  induction m with
  | zero => simp [arrayBrackets]
  | succ m ih =>
      rw [Nat.succ_add, arrayBrackets, arrayBrackets, ih, List.cons_append, List.cons_append]

theorem FormalParameter.declared_bracketsToType (p : FormalParameter) :
    p.bracketsToType.declared = p.declared := by
  cases hform : p.form with
  | variableArguments => rw [bracketsToType, hform]
  | named n =>
      simp [bracketsToType, hform, declared, dots, dimensions, WrittenType.text,
        WrittenType.lexemes, arrayBrackets_add, arrayBrackets, ← written_append]

/-- Wherever the brackets are written, the same parameters are declared. -/
theorem declared_bracketsMoved {ps qs : List FormalParameter}
    (h : List.Forall₂ (fun p q => q = p ∨ q = p.bracketsToType) ps qs) :
    qs.map FormalParameter.declared = ps.map FormalParameter.declared := by
  induction h with
  | nil => rfl
  | cons hpq _ ih =>
      rw [List.map_cons, List.map_cons, ih]
      rcases hpq with rfl | rfl
      · rfl
      · rw [FormalParameter.declared_bracketsToType]

/-- **The parameters of a method.**  A method or constructor is added to the
type with its name, type and modifiers, behind the members that were there, and
reading goes on after it.  Its parameters are those that are written only if no comma comes right behind
the brackets of a name, and no dots come after a type that ends in a
bracket.  Where brackets are written makes no other difference. -/
theorem Signature.declares_parameters (h : Signature) {p : Progress}
    (hlevel : p.nesting.level = .typeBody) (withLocals : Bool)
    (hlaid : Laid (h.lexemes ++ more) text rest) :
    (∃ parameters q locals after, p.Keeps q ∧ p.KeepsMembers q ∧ h.Resumes more rest after ∧
      p.read withLocals text =
        (q.mapRecord fun record => record.addMethod (h.method parameters locals)).read
          withLocals after ∧
      (parameters = h.parameters.map FormalParameter.declared ↔
        commasApart h.parameters (past h.openingLexemes text) = true ∧
          h.parameters.all FormalParameter.dotsStay = true)) ∧
      ∀ qs, List.Forall₂ (fun p q => q = p ∨ q = p.bracketsToType) h.parameters qs →
        qs.map FormalParameter.declared = h.parameters.map FormalParameter.declared := by
  refine ⟨?_, fun qs hqs => declared_bracketsMoved hqs⟩
  obtain ⟨next, hnext, hscan⟩ := h.scan_eq hlaid
  obtain ⟨q, locals, hkeeps, hmembers, hread⟩ := Progress.read_addMethod hlevel withLocals hscan
    (h.ending_eq_or next) (h.reading (h.gap_eq_blank _) _)
  have hnone : false = true → h.parameters ≠ [] := by simp
  refine ⟨_, q, locals, h.resume next, hkeeps, hmembers, h.resumes_resume hnext, hread, ?_⟩
  simpa [method] using parameters_formalTokens_iff h.parameters hnone _ (thrownTokens h.thrown)

namespace Signature

/-- A class type of one word. -/
def plainType (n : Name) : ClassType := ⟨⟨n, []⟩, none⟩

/-- A generic method with parameters of every form. -/
def summing : Signature where
  modifiers := [⟨"static", .refl true⟩]
  typeParameters := some ⟨⟨⟨"T", .refl true⟩, .refl false⟩,
    [.word ⟨"extends", .refl true⟩, .word ⟨"Item", .refl true⟩], .refl true⟩
  type := some ⟨plainType ⟨⟨"int", .refl true⟩, .refl false⟩, 1⟩
  name := ⟨⟨"sum", .refl true⟩, .refl false⟩
  parameters :=
    [⟨true, ⟨plainType ⟨⟨"int", .refl true⟩, .refl false⟩, 1⟩,
      ⟨⟨"a", .refl true⟩, .refl false⟩, .named 1⟩,
    ⟨false, ⟨⟨⟨⟨⟨"List", .refl true⟩, .refl false⟩, []⟩,
      some ⟨[.word ⟨"T", .refl true⟩], .refl true, .refl true⟩⟩, 0⟩,
      ⟨⟨"b", .refl true⟩, .refl false⟩, .named 0⟩,
    ⟨false, ⟨plainType ⟨⟨"T", .refl true⟩, .refl false⟩, 0⟩,
      ⟨⟨"rest", .refl true⟩, .refl false⟩, .variableArguments⟩]
  thrown := [plainType ⟨⟨"Failure", .refl true⟩, .refl false⟩]
  hasBody := false
  complete := nofun

theorem declares_parameters_summing : ∃ q locals after,
    Block.insideClass.nesting.level = .typeBody ∧ Block.insideClass.Keeps q ∧
      Block.insideClass.KeepsMembers q ∧
      Block.insideClass.read false
          ("static < T extends Item > int [ ] sum ( final int [ ] a [ ] , List < T > b , " ++
            "T . . . rest ) throws Failure ;").toList =
        (q.mapRecord fun record => record.addMethod (summing.method [⟨"a", some "int[][]", true⟩,
          ⟨"b", some "List<T>", false⟩, ⟨"rest", some "T...", false⟩] locals)).read false
            after := by
  have hformed : (summing.lexemes ++ []).all Lexeme.isFormed = true := by decide +kernel
  have hlaid := laid_spaced (isMark_of_all_isFormed hformed)
  have htext : spaced (summing.lexemes ++ []) =
      ("static < T extends Item > int [ ] sum ( final int [ ] a [ ] , List < T > b , " ++
        "T . . . rest ) throws Failure ;").toList := by decide +kernel
  rw [htext] at hlaid
  have hlevel : Block.insideClass.nesting.level = .typeBody := by decide +kernel
  obtain ⟨⟨parameters, q, locals, after, hkeeps, hmembers, _, hread, hiff⟩, _⟩ :=
    declares_parameters summing hlevel false hlaid
  have hparameters := hiff.2 (by decide +kernel)
  have hdeclared : summing.parameters.map FormalParameter.declared = [⟨"a", some "int[][]", true⟩,
      ⟨"b", some "List<T>", false⟩, ⟨"rest", some "T...", false⟩] := by decide +kernel
  rw [hdeclared] at hparameters
  rw [hparameters] at hread
  exact ⟨q, locals, after, hlevel, hkeeps, hmembers, hread⟩

/-- The parameters that are read of the first method of a text. -/
def parametersOf (text : String) : List (List Variable) :=
  (outline false text).flatMap fun record => record.methods.map Method.parameters

/-- A comma right behind the brackets of a name shifts the parameters after
it, and dots after a type that ends in a bracket go to the name. -/
theorem not_read_brackets :
    parametersOf "class A \x7b void f(int a[], int b) \x7b \x7d \x7d" =
        [[⟨"a", some "int[]", false⟩, ⟨"int", some ",", false⟩, ⟨")", some "b", false⟩]] ∧
      parametersOf "class A \x7b void f(int a[] , int b) \x7b \x7d \x7d" =
          [[⟨"a", some "int[]", false⟩, ⟨"b", some "int", false⟩]] ∧
        parametersOf "class A \x7b void f(List<T>... a) \x7b \x7d \x7d" =
          [[⟨"...a", some "List<T>", false⟩]] := by
  decide +kernel

end Signature

end JavaOutline
