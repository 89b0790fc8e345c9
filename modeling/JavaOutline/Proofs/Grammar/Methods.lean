import JavaOutline.Proofs.Grammar.Variables

/-!
# JavaOutline.Proofs.Grammar.Methods

Methods and constructors as they are written.  The header is read as its
modifiers, the type, the name and the tokens of the parameters between
parentheses (`takes_method`), and these tokens declare the method
(`MethodHeader.reading`).
-/

namespace JavaOutline

open Text OpenStatement

/-! ## Parameters -/

/-- A parameter of a method. -/
structure Parameter where
  isFinal : Bool
  type : WrittenType
  name : Name

/-- The word `final`. -/
def finalWord : Word := ⟨"final", by decide⟩

namespace Parameter

/-- The lexemes of a parameter before its name. -/
def typeLexemes (p : Parameter) : List Lexeme :=
  if p.isFinal then .word finalWord :: p.type.lexemes else p.type.lexemes

/-- The tokens of a parameter. -/
def tokens (p : Parameter) : List String :=
  if p.isFinal then ["final", p.type.text, p.name.text] else [p.type.text, p.name.text]

/-- The variable that a parameter declares. -/
def declared (p : Parameter) : Variable := ⟨p.name.text, some p.type.text, p.isFinal⟩

end Parameter

/-- The lexemes of parameters with a comma between any two. -/
def parameterLexemes : List Parameter → List Lexeme
  | [] => []
  | [p] => p.typeLexemes ++ [.word p.name.toWord]
  | p :: q :: ps =>
    p.typeLexemes ++ (.word p.name.toWord :: .mark ',' :: parameterLexemes (q :: ps))

/-- The tokens of parameters. -/
def parameterTokens (ps : List Parameter) : List String := ps.flatMap Parameter.tokens

/-! ## Reading parameters -/

theorem takes_parameterType (p : Parameter) {k : OpenStatement} (hangles : k.angles = 0) :
    Takes Lexeme.Follows k p.typeLexemes
      (k.takeAll (if p.isFinal then ["final", p.type.text] else [p.type.text])) := by
  rw [Parameter.typeLexemes]
  cases p.isFinal with
  | false => simpa [takeAll, take] using takes_type p.type hangles
  | true =>
      have hword := takes_word k finalWord
      have htype := takes_type p.type (k := k.take finalWord.text) hangles
      have hboth := hword.append htype (fun _ _ hl => hl) (by intro y hy; cases hy; trivial)
      simpa [takeAll, take, finalWord] using hboth

/-- Inside parentheses a comma ends a token and is dropped. -/
theorem takes_word_comma (w : Word) {k : OpenStatement} (hparentheses : k.parentheses ≠ 0)
    (hangles : k.angles = 0) :
    Takes (fun l => ∃ v, l = .word v) k [.word w, .mark ','] (k.take w.text) := by
  intro s l more text rest hs hl hlaid
  obtain ⟨v, rfl⟩ := hl
  have hk := hs.current_eq
  obtain ⟨mid, hfits, hmid, hword⟩ := hs.read_word hlaid
  have hstands := w.stands_extend hk hfits
  have hcurrent : (k.extend w.text).current ≠ "" := by simp [extend, hk, w.ne_empty]
  obtain ⟨after, hafter, hcomma⟩ := read_joint hcurrent (by decide) hmid
  have hhead : (skipBlanks after).head? ≠ some '[' := by
    obtain ⟨c, cs, hv, hplain, _⟩ := v.exists_cons
    rw [hafter.head?_skipBlanks, Lexeme.chars, hv, List.head?_cons]
    rintro h
    cases h
    exact absurd hplain (by decide)
  have hjoint : (k.extend w.text).joint ',' after = ((k.extend w.text).endToken, after) := by
    have hcount : (k.extend w.text).countAngle ',' = k.extend w.text := rfl
    have hopen : (k.extend w.text).parentheses ≠ 0 := hparentheses
    have hzero : (k.extend w.text).angles = 0 := hangles
    have hjoins : (k.extend w.text).joins ',' (skipBlanks after).head? = false := by
      simp [joins, closesToken, hopen, hzero, hhead]
    rw [joint, hcount]
    dsimp only
    rw [if_neg (by simp), if_neg (by simp [hjoins]), if_neg (by decide)]
  have hempty : (k.take w.text).current = "" := hk
  refine ⟨k.take w.text, after, .of_current_eq_empty hempty after, hafter, ?_⟩
  rw [hword, hcomma, hjoint, hstands.ended]

theorem parameterLexemes_head? (q : Parameter) (ps : List Parameter) :
    ∃ v, (parameterLexemes (q :: ps)).head? = some (.word v) := by
  have htype : ∃ v ls, q.typeLexemes = .word v :: ls := by
    rw [Parameter.typeLexemes]
    cases q.isFinal with
    | false => exact ⟨_, _, rfl⟩
    | true => exact ⟨_, _, rfl⟩
  obtain ⟨v, ls, hv⟩ := htype
  cases ps with
  | nil => exact ⟨v, by simp [parameterLexemes, hv]⟩
  | cons p ps => exact ⟨v, by simp [parameterLexemes, hv]⟩

/-- The tokens of parameters are the types and the names. -/
theorem takes_parameters (ps : List Parameter) {k : OpenStatement} (hparentheses : k.parentheses ≠ 0)
    (hangles : k.angles = 0) :
    Takes Lexeme.Follows k (parameterLexemes ps) (k.takeAll (parameterTokens ps)) := by
  have htokens : ∀ (k : OpenStatement) (p : Parameter),
      (k.takeAll (if p.isFinal then ["final", p.type.text] else [p.type.text])).take p.name.text =
        k.takeAll p.tokens := by
    intro k p
    cases hfinal : p.isFinal <;> simp [takeAll, take, Parameter.tokens, hfinal]
  induction ps generalizing k with
  | nil => simpa [parameterLexemes, parameterTokens, takeAll] using Takes.nil
  | cons p ps ih =>
      have htype := takes_parameterType p hangles
      cases ps with
      | nil =>
          have hname := htype.append (takes_word _ p.name.toWord) (fun _ _ hl => hl)
            (by intro y hy; cases hy; trivial)
          rw [htokens] at hname
          simpa [parameterLexemes, parameterTokens] using hname
      | cons q ps =>
          have hname := htype.append (takes_word_comma p.name.toWord hparentheses hangles)
            (by simp) (by intro y hy; cases hy; trivial)
          rw [htokens] at hname
          obtain ⟨v, hv⟩ := parameterLexemes_head? q ps
          have hall := hname.append (ih (k := k.takeAll p.tokens) hparentheses hangles)
            (by intro h; rw [h] at hv; cases hv) (by rw [hv]; intro y hy; cases hy; exact ⟨v, rfl⟩)
          simpa [parameterLexemes, parameterTokens, takeAll] using hall

/-! ## Dots -/

/-- Whether no two dots of a text are side by side. -/
def singleDots : List Char → Bool
  | [] => true
  | c :: rest => !(c == '.' && rest.head? == some '.') && singleDots rest

theorem cutAfterDots_eq_none {text : List Char} (h : singleDots text = true) :
    cutAfterDots text = none := by
  induction text with
  | nil => rfl
  | cons c rest ih =>
      rw [singleDots, Bool.and_eq_true] at h
      obtain ⟨hfirst, hrest⟩ := h
      unfold cutAfterDots
      split
      · rfl
      · next heq =>
          cases heq
          simp at hfirst
      · next heq =>
          cases heq
          rw [ih hrest]
          rfl

/-- Characters that are no dots keep the dots around them apart. -/
theorem singleDots_append {xs ys : List Char} (hxs : '.' ∉ xs) (hys : singleDots ys = true) :
    singleDots (xs ++ ys) = true := by
  induction xs with
  | nil => exact hys
  | cons c xs ih =>
      rw [List.mem_cons, not_or] at hxs
      have hc : c ≠ '.' := Ne.symm hxs.1
      simp [singleDots, hc, ih hxs.2]

theorem Word.not_head?_dot (w : Word) (rest : List Char) :
    (w.text.toList ++ rest).head? ≠ some '.' := by
  obtain ⟨c, cs, hw, hplain, _⟩ := w.exists_cons
  rw [hw, List.cons_append, List.head?_cons]
  rintro h
  cases h
  exact absurd hplain (by decide)

/-- Lexemes of a type keep their dots apart if they do so as lexemes. -/
theorem singleDots_flatMap {ls : List Lexeme} (hls : ∀ q, Lexeme.literal q ∉ ls)
    (h : dotsApart ls = true) : singleDots (ls.flatMap Lexeme.chars) = true := by
  induction ls with
  | nil => rfl
  | cons l ls ih =>
      rw [dotsApart, Bool.and_eq_true] at h
      have hrest := ih (fun q hq => hls q (List.mem_cons_of_mem l hq)) h.2
      rw [List.flatMap_cons]
      cases l with
      | literal q => exact absurd List.mem_cons_self (hls q)
      | word w => exact singleDots_append (w.not_mem (by decide)) hrest
      | mark c =>
          by_cases hc : c = '.'
          · subst hc
            have hnext : (ls.flatMap Lexeme.chars).head? ≠ some '.' := by
              cases ls with
              | nil => simp
              | cons l ls =>
                  rw [List.flatMap_cons]
                  cases l with
                  | literal q => exact absurd (List.mem_cons_of_mem _ List.mem_cons_self) (hls q)
                  | word w => exact w.not_head?_dot _
                  | mark d => simpa [Lexeme.isDot, Lexeme.chars] using h.1
            simp [Lexeme.chars, singleDots, hnext, hrest]
          · simp [Lexeme.chars, singleDots, hc, hrest]

theorem dotsApart_append {xs ys : List Lexeme} (hxs : dotsApart xs = true)
    (hys : dotsApart ys = true) (hbetween : ys.head?.any Lexeme.isDot = false) :
    dotsApart (xs ++ ys) = true := by
  induction xs with
  | nil => exact hys
  | cons l xs ih =>
      rw [dotsApart, Bool.and_eq_true] at hxs
      rw [List.cons_append, dotsApart, ih hxs.2, Bool.and_true]
      cases xs with
      | nil => simp [hbetween]
      | cons x xs => exact hxs.1

theorem dotsApart_dotted (ws : List Word) : dotsApart (dotted ws) = true := by
  induction ws with
  | nil => rfl
  | cons w ws ih => simp [dotted, dotsApart, Lexeme.isDot, ih]

theorem dotsApart_arrayBrackets (n : Nat) : dotsApart (arrayBrackets n) = true := by
  induction n with
  | zero => rfl
  | succ n ih => simp [arrayBrackets, dotsApart, Lexeme.isDot, ih]

/-- There is no literal between angle brackets. -/
theorem not_literal_of_insideAngles {depth : Nat} {named : Bool} {ls : List Lexeme}
    (h : insideAngles depth named ls = true) (q : Literal) : Lexeme.literal q ∉ ls := by
  induction ls generalizing depth named with
  | nil => simp
  | cons l ls ih =>
      cases l with
      | literal q => simp [insideAngles] at h
      | word w =>
          simp only [insideAngles, Bool.and_eq_true] at h
          simp [ih h.2]
      | mark c =>
          obtain ⟨d, _, hls⟩ := insideAngles_mark h
          simp [ih hls]

theorem WrittenType.not_literal (t : WrittenType) (q : Literal) : Lexeme.literal q ∉ t.lexemes := by
  have hdotted : ∀ ws, Lexeme.literal q ∉ dotted ws := by
    intro ws
    induction ws with
    | nil => simp [dotted]
    | cons w ws ih => simp [dotted, ih]
  have hbrackets : ∀ n, Lexeme.literal q ∉ arrayBrackets n := by
    intro n
    induction n with
    | zero => simp [arrayBrackets]
    | succ n ih => simp [arrayBrackets, ih]
  cases harguments : t.arguments with
  | none =>
      simp [WrittenType.lexemes, ClassType.lexemes, ClassType.tail, harguments, argumentLexemes,
        hdotted, hbrackets]
  | some arguments =>
      have hinside := not_literal_of_insideAngles arguments.inside q
      simp [WrittenType.lexemes, ClassType.lexemes, ClassType.tail, harguments, argumentLexemes,
        hdotted, hbrackets, hinside]

theorem WrittenType.dotsApart (t : WrittenType) : JavaOutline.dotsApart t.lexemes = true := by
  have hbrackets : (arrayBrackets t.dimensions).head?.any Lexeme.isDot = false := by
    cases t.dimensions <;> rfl
  have harguments : JavaOutline.dotsApart (argumentLexemes t.arguments) = true ∧
      (argumentLexemes t.arguments).head?.any Lexeme.isDot = false := by
    cases t.arguments with
    | none => exact ⟨rfl, rfl⟩
    | some arguments =>
        have hclosed : JavaOutline.dotsApart (arguments.lexemes ++ [.mark '>']) = true :=
          dotsApart_append arguments.apart rfl rfl
        exact ⟨by simp [argumentLexemes, JavaOutline.dotsApart, Lexeme.isDot, hclosed], rfl⟩
  have htail := dotsApart_append (dotsApart_dotted t.name.more) harguments.1 harguments.2
  have hclass : JavaOutline.dotsApart t.toClassType.lexemes = true := by
    simp [ClassType.lexemes, JavaOutline.dotsApart, Lexeme.isDot, ClassType.tail, htail]
  exact dotsApart_append hclass (dotsApart_arrayBrackets t.dimensions) hbrackets

/-- No type holds the dots of a variable number of arguments. -/
theorem WrittenType.cutAfterDots_eq_none (t : WrittenType) : cutAfterDots t.text.toList = none := by
  rw [WrittenType.text, toList_written]
  exact JavaOutline.cutAfterDots_eq_none (singleDots_flatMap t.not_literal t.dotsApart)

/-! ## What parameters declare -/

theorem WrittenType.ne_of_reserved (t : WrittenType) {word : String} (h : word ∈ reservedWords) :
    t.text ≠ word := by
  rintro rfl
  have hfree := t.free
  rw [List.contains_eq_mem, decide_eq_false_iff_not] at hfree
  exact hfree h

/-- The parameters in front of a closed parenthesis are those written. -/
theorem parameters_eq (ps : List Parameter) (rest : List String) :
    parameters false (parameterTokens ps ++ ")" :: rest) = ps.map Parameter.declared := by
  induction ps with
  | nil => simp [parameterTokens, parameters.eq_def]
  | cons p ps ih =>
      have hfinal : p.type.text ≠ "final" := p.type.ne_of_reserved (by decide)
      have hclosing : p.type.text ≠ ")" := by
        intro h
        obtain ⟨c, cs, htext, hplain⟩ := p.type.exists_cons
        rw [h] at htext
        cases htext
        exact absurd hplain (by decide)
      have htype : ∀ isFinal, parameters isFinal
          (p.type.text :: p.name.text :: (parameterTokens ps ++ ")" :: rest)) =
            ⟨p.name.text, some p.type.text, isFinal⟩ :: ps.map Parameter.declared := by
        intro isFinal
        rw [parameters.eq_def]
        simp [hclosing, hfinal, p.type.cutAfterDots_eq_none, Word.declare_eq, ih]
      have htokens : parameterTokens (p :: ps) = p.tokens ++ parameterTokens ps := by
        simp [parameterTokens]
      rw [htokens, Parameter.tokens]
      cases hp : p.isFinal with
      | false => simpa [Parameter.declared, hp] using htype false
      | true =>
          have hword := htype true
          rw [List.map_cons, Parameter.declared, hp, ← hword]
          simp [parameters]

/-! ## Headers of methods -/

/-- What is written of a method or constructor before its body. -/
structure MethodHeader where
  modifiers : List Modifier
  /-- The type of what is returned, which constructors lack. -/
  type : Option WrittenType
  name : Name
  parameters : List Parameter

namespace MethodHeader

/-- The lexemes of a header before the parenthesis. -/
def namedLexemes (h : MethodHeader) : List Lexeme :=
  modifierLexemes h.modifiers ++ ((h.type.map WrittenType.lexemes).getD [] ++ [.word h.name.toWord])

/-- The lexemes of a header. -/
def lexemes (h : MethodHeader) : List Lexeme :=
  h.namedLexemes ++ (.mark '(' :: (parameterLexemes h.parameters ++ [.mark ')']))

/-- The tokens of a header before the parenthesis. -/
def namedTokens (h : MethodHeader) : List String :=
  h.modifiers.map Modifier.text ++ ((h.type.map WrittenType.text).toList ++ [h.name.text])

/-- The tokens of a header. -/
def tokens (h : MethodHeader) : List String :=
  h.namedTokens ++ ("(" :: (parameterTokens h.parameters ++ [")"]))

/-- The method that a header declares, with the variables of its body. -/
def method (h : MethodHeader) (locals : List Variable) : Method where
  name := h.name.text
  type := h.type.map WrittenType.text
  isFinal := (modifiersOf h.modifiers).isFinal
  access := (modifiersOf h.modifiers).access
  isStatic := (modifiersOf h.modifiers).isStatic
  parameters := h.parameters.map Parameter.declared
  locals

end MethodHeader

theorem takes_namedLexemes (h : MethodHeader) :
    Takes Lexeme.Follows start h.namedLexemes (start.takeAll h.namedTokens) := by
  have hmodifiers := takes_modifiers start h.modifiers
  cases htype : h.type with
  | none =>
      have hall := hmodifiers.append (takes_word _ h.name.toWord) (fun _ _ hl => hl)
        (by intro y hy; cases hy; trivial)
      simpa [MethodHeader.namedLexemes, MethodHeader.namedTokens, htype, takeAll, take] using hall
  | some type =>
      have hname := (takes_type type (k := start.takeAll (h.modifiers.map Modifier.text)) rfl).append
        (takes_word _ h.name.toWord) (fun _ _ hl => hl) (by intro y hy; cases hy; trivial)
      have hall := hmodifiers.append hname (fun _ _ hl => hl) (by intro y hy; cases hy; trivial)
      simpa [MethodHeader.namedLexemes, MethodHeader.namedTokens, htype, takeAll, take] using hall

/-- The closed parenthesis of a header stays if a body follows, and where a
type stands before the name. -/
theorem takes_method (h : MethodHeader) {F : Lexeme → Prop}
    (hbody : h.type = none → ∀ l, F l → l = .mark '\x7b') :
    Takes F start h.lexemes (start.takeAll h.tokens) := by
  have hopen := (takes_namedLexemes h).append
    (takes_openParenthesis Lexeme.Follows (start.takeAll h.namedTokens)) (fun hnil => by cases hnil)
    (by intro y hy; cases hy; simp [Lexeme.Follows])
  generalize hk : (start.takeAll h.namedTokens).openParenthesis = k at hopen
  have hparameters : Takes Lexeme.Follows k (parameterLexemes h.parameters)
      (k.takeAll (parameterTokens h.parameters)) := by
    apply takes_parameters h.parameters <;> simp [← hk, openParenthesis, takeAll, start]
  have hkept : (k.takeAll (parameterTokens h.parameters)).beginsInert = true ∨
      "(" ∈ (k.takeAll (parameterTokens h.parameters)).tokens.drop 2 ∨
        ∀ l, F l → l = .mark '\x7b' := by
    cases htype : h.type with
    | none => exact .inr (.inr (hbody htype))
    | some type =>
        have hlength : 2 ≤ h.namedTokens.length := by
          simp [MethodHeader.namedTokens, htype]
        have hdrop : (k.takeAll (parameterTokens h.parameters)).tokens.drop 2 =
            h.namedTokens.drop 2 ++ "(" :: parameterTokens h.parameters := by
          simp [← hk, takeAll, openParenthesis, start, List.drop_append_of_le_length hlength]
        refine .inr (.inl ?_)
        rw [hdrop]
        simp
  have hclose := takes_closeParenthesis (F := F) hkept
  have hclosed : (k.takeAll (parameterTokens h.parameters)).closed = start.takeAll h.tokens := by
    simp [← hk, closed, takeAll, openParenthesis, start, MethodHeader.tokens]
  rw [hclosed] at hclose
  have hinside := hparameters.append hclose (fun hnil => by cases hnil)
    (by intro y hy; cases hy; simp [Lexeme.Follows])
  have hall := hopen.append hinside (by simp)
    (by
      intro y hy
      cases hp : h.parameters with
      | nil => rw [hp] at hy; cases hy; simp [Lexeme.Follows]
      | cons p ps =>
          obtain ⟨v, hv⟩ := parameterLexemes_head? p ps
          rw [hp, List.head?_append, hv] at hy
          cases hy
          trivial)
  simpa [MethodHeader.lexemes] using hall

theorem MethodHeader.head?_lexemes (h : MethodHeader) : h.lexemes.head? ≠ some (.mark '/') := by
  cases hmodifiers : h.modifiers with
  | cons x xs =>
      simp [MethodHeader.lexemes, MethodHeader.namedLexemes, hmodifiers, modifierLexemes]
  | nil =>
      cases htype : h.type <;>
        simp [MethodHeader.lexemes, MethodHeader.namedLexemes, hmodifiers, htype, modifierLexemes,
          WrittenType.lexemes, ClassType.lexemes]

/-- A method without a body is one statement. -/
theorem scan_method_semicolon (h : MethodHeader) (htype : h.type ≠ none) {more : List Lexeme}
    {text rest : List Char} (hlaid : Laid (h.lexemes ++ .mark ';' :: more) text rest) :
    ∃ after, Laid more after rest ∧ scan text = some (⟨h.tokens, .semicolon⟩, after) := by
  have htakes := takes_method h (F := fun l => l = .mark ';') fun hnone => absurd hnone htype
  obtain ⟨after, hafter, hscan⟩ := htakes.scan_semicolon rfl h.head?_lexemes rfl hlaid
  exact ⟨after, hafter, by simpa using hscan⟩

/-- A method with a body is one statement up to the brace. -/
theorem scan_method_block (h : MethodHeader) {more : List Lexeme} {text rest : List Char}
    (hlaid : Laid (h.lexemes ++ .mark '\x7b' :: more) text rest) : ∃ body, Laid more body rest ∧
      scan text = some (⟨h.tokens, .block body (afterBracket '\x7b' '\x7d' 0 body)⟩,
        afterBracket '\x7b' '\x7d' 0 body) := by
  have htakes := takes_method h (F := fun l => l = .mark '\x7b') fun _ _ hl => hl
  have hlength : h.tokens.length ≠ 1 := by
    simp [MethodHeader.tokens, MethodHeader.namedTokens]
    omega
  have hlone : (start.takeAll h.tokens).isLoneName = false := by simp [isLoneName, hlength]
  obtain ⟨body, hbody, hscan⟩ := htakes.scan_block rfl h.head?_lexemes rfl hlone hlaid
  exact ⟨body, hbody, by simpa using hscan⟩

theorem Word.ne_openParenthesis (w : Word) : w.text ≠ "(" := by
  intro h
  obtain ⟨c, cs, hw, hplain, _⟩ := w.exists_cons
  rw [h] at hw
  cases hw
  exact absurd hplain (by decide)

theorem MethodHeader.declare_eq (h : MethodHeader) :
    (modifiersOf h.modifiers).declare ((h.type.map WrittenType.text).toList ++ h.name.text ::
      "(" :: (parameterTokens h.parameters ++ [")"])) = .method (h.method []) := by
  cases htype : h.type with
  | none =>
      have hmember : (modifiersOf h.modifiers).member h.name.text none = (h.method []).toMember := by
        simp [Modifiers.member, Member.declare, Word.declare_eq, MethodHeader.method, htype]
      simp [Modifiers.declare, hmember, parameters_eq, MethodHeader.method]
  | some type =>
      have hmember : (modifiersOf h.modifiers).member h.name.text (some type.text) =
          (h.method []).toMember := by
        simp [Modifiers.member, Member.declare, Word.declare_eq, MethodHeader.method, htype]
      simp [Modifiers.declare, hmember, parameters_eq, MethodHeader.method, h.name.ne_openParenthesis]

/-- In the body of a type, the header of a method declares the method. -/
theorem MethodHeader.reading (h : MethodHeader) :
    Reading.ofTokens .typeBody h.tokens = .declaring (.method (h.method [])) := by
  have htokens : h.tokens = h.modifiers.map Modifier.text ++
      ((h.type.map WrittenType.text).toList ++ h.name.text ::
        "(" :: (parameterTokens h.parameters ++ [")"])) := by
    simp [MethodHeader.tokens, MethodHeader.namedTokens]
  have hdeclare := h.declare_eq
  rw [htokens, Reading.ofTokens, Reading.ofTokensAfter_modifiers _ _ _ _ _ (by simp), ← modifiersOf]
  generalize (modifiersOf h.modifiers) = m at hdeclare ⊢
  cases htype : h.type with
  | none =>
      rw [htype] at hdeclare
      simp only [Option.map_none, Option.toList_none, List.nil_append] at hdeclare ⊢
      rw [Reading.ofTokensAfter_member h.name.free h.name.not_head?_angle (by simp),
        Reading.member, hdeclare]
      · rfl
      · simp
  | some type =>
      rw [htype] at hdeclare
      simp only [Option.map_some, Option.toList_some, List.singleton_append] at hdeclare ⊢
      rw [Reading.ofTokensAfter_member type.free type.not_head?_angle (by simp),
        Reading.member, hdeclare]
      · rfl
      · simp

end JavaOutline
