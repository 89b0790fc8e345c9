import JavaOutline.Proofs.Grammar.Modifiers

/-!
# JavaOutline.Proofs.Grammar.Variables

Declarations of variables as they are written: modifiers, a type, and names
of which each may have an initializer.  The names come to one token, with
the commas between them, and the initializers are passed over
(`scan_variables`).
-/

namespace JavaOutline

open Text OpenStatement

/-! ## Initializers -/

/-- The marks that may stand in an initializer: a separator does so inside
brackets only, and `<` does not, as it could open type arguments. -/
def allowedInInitializer (stack : List Char) (c : Char) : Bool :=
  isMark c && c != '<' && !(stack.isEmpty && [',', ';'].contains c)

/-- An expression after `=`. -/
structure Initializer where
  lexemes : List Lexeme
  nests : nests allowedInInitializer [] lexemes = true

/-- An initializer does not end before its separator. -/
theorem Initializer.initializerEnd_eq (e : Initializer) {more : List Lexeme} {text rest : List Char}
    (hlaid : Laid (e.lexemes ++ more) text rest) : ∃ mid, Laid more mid rest ∧
      initializerEnd .none text = initializerEnd .none mid := by
  obtain ⟨mid, hexpression, hmid⟩ := hlaid.append
  have hnests := Nests.of_nests e.nests
  obtain ⟨angle, hend, hangle⟩ := hnests.initializerEnd_eq (by decide) (by decide) (by simp) 0
    hexpression
  have hnone : ∀ stack, allowedInInitializer stack '<' = false := by
    simp [allowedInInitializer]
  rw [hangle hnone rfl] at hend
  exact ⟨mid, hmid, hend⟩

/-- An initializer ends at the semicolon after it. -/
theorem Initializer.initializerEnd_semicolon (e : Initializer) {more : List Lexeme}
    {text rest : List Char} (hlaid : Laid (e.lexemes ++ .mark ';' :: more) text rest) :
    ∃ after, Laid more after rest ∧ initializerEnd .none text = .semicolon after := by
  obtain ⟨mid, ⟨run, after, hrun, rfl, _, hafter⟩, hend⟩ := e.initializerEnd_eq hlaid
  refine ⟨after, hafter, ?_⟩
  rw [hend, initializerEnd_blanks_append _ hrun, Lexeme.chars, List.singleton_append, initializerEnd]
  rfl

/-- An initializer ends before the comma after it. -/
theorem Initializer.initializerEnd_comma (e : Initializer) {more : List Lexeme}
    {text rest : List Char} (hlaid : Laid (e.lexemes ++ .mark ',' :: more) text rest) :
    ∃ after, Laid (.mark ',' :: more) after rest ∧ initializerEnd .none text = .comma after := by
  obtain ⟨mid, ⟨run, after, hrun, rfl, hfits, hafter⟩, hend⟩ := e.initializerEnd_eq hlaid
  refine ⟨',' :: after, ⟨[], after, by simp [AllBlank], rfl, hfits, hafter⟩, ?_⟩
  rw [hend, initializerEnd_blanks_append _ hrun, Lexeme.chars, List.singleton_append, initializerEnd]
  rfl

theorem Initializer.passes (e : Initializer) : Passes e.lexemes := passes_of_nests e.nests

/-! ## Declarators -/

/-- The name of a variable with its initializer. -/
structure Declarator where
  name : Name
  value : Option Initializer

/-- The lexemes of an initializer with the `=` before it. -/
def valueLexemes : Option Initializer → List Lexeme
  | none => []
  | some e => .mark '=' :: e.lexemes

/-- The lexemes of declarators with a comma before each. -/
def declaratorLexemes : List Declarator → List Lexeme
  | [] => []
  | d :: ds => .mark ',' :: .word d.name.toWord :: (valueLexemes d.value ++ declaratorLexemes ds)

/-- Names with a comma before each. -/
def namesAfter : List Name → String
  | [] => ""
  | n :: ns => "," ++ n.text ++ namesAfter ns

namespace OpenStatement

variable {s : OpenStatement} {more : List Lexeme} {text rest : List Char}

/-- A comma and a name go on with the token. -/
theorem read_comma_word (w : Word) (hparentheses : s.parentheses = 0) (hcurrent : s.current ≠ "")
    (hlaid : Laid (.mark ',' :: .word w :: more) text rest) : ∃ after,
      (Lexeme.word w).Fits after ∧ Laid more after rest ∧
        s.read text = (s.extend ("," ++ w.text)).read after := by
  have hcount : s.countAngle ',' = s := rfl
  obtain ⟨mid, hmid, htight, hcomma⟩ := read_joined hcurrent (by decide) (by simp)
    (by simp [joins, closesToken, hcount, hparentheses]) hlaid
  obtain ⟨after, hfits, hafter, hword⟩ := read_joined_word hmid htight
  refine ⟨after, hfits, hafter, ?_⟩
  rw [hcomma, hcount, push_eq_extend, hword, extend_extend]
  rfl

/-- Ending a token and going on with it changes nothing. -/
theorem reopen_endToken (hcurrent : s.current ≠ "") (hat : s.atAnnotation = false) :
    s.endToken.reopen = s := by
  rw [endToken_of_current_ne_empty hcurrent hat]
  simp [reopen]

/-- The declarators after a name are read up to the semicolon. -/
theorem read_declarators (value : Option Initializer) (ds : List Declarator)
    (hparentheses : s.parentheses = 0) (hcurrent : s.current ≠ "") (hat : s.atAnnotation = false)
    (hapart : Apart text)
    (hlaid : Laid (valueLexemes value ++ (declaratorLexemes ds ++ .mark ';' :: more)) text rest) :
    ∃ after, Laid more after rest ∧ s.read text =
      some (⟨s.tokens ++ [s.current ++ namesAfter (ds.map Declarator.name)], .semicolon⟩,
        after) := by
  induction ds generalizing s value text with
  | nil =>
      have hstands := Stands.of_apart hat hapart
      have hzero : s.endToken.parentheses = 0 := by rw [parentheses_endToken, hparentheses]
      rw [endToken_of_current_ne_empty hcurrent hat] at hstands hzero
      cases value with
      | none =>
          obtain ⟨after, hafter, hread⟩ := hstands.read_semicolon hzero hlaid
          exact ⟨after, hafter, by simpa [namesAfter] using hread⟩
      | some e =>
          obtain ⟨start, hstart, hread⟩ := hstands.read_equals hzero hlaid
          obtain ⟨after, hafter, hend⟩ := e.initializerEnd_semicolon hstart
          refine ⟨after, hafter, ?_⟩
          rw [hread, hend]
          simp [namesAfter]
  | cons d ds ih =>
      -- A comma goes on with the names, whether an initializer comes before it or not.
      have hcomma : ∀ t : List Char, Laid (declaratorLexemes (d :: ds) ++ .mark ';' :: more) t rest →
          ∃ after, Laid more after rest ∧ s.read t =
            some (⟨s.tokens ++ [s.current ++ namesAfter ((d :: ds).map Declarator.name)],
              .semicolon⟩, after) := by
        intro t ht
        simp only [declaratorLexemes, List.cons_append, List.append_assoc] at ht
        obtain ⟨mid, hfits, hmid, hname⟩ := read_comma_word d.name.toWord hparentheses hcurrent ht
        have hcurrent' := extend_ne_empty hcurrent ("," ++ d.name.text)
        have hat' : atAnnotation (s.extend ("," ++ d.name.text)) = false := by
          rw [atAnnotation_extend hcurrent, hat]
        obtain ⟨after, hafter, hread⟩ := ih (s := s.extend ("," ++ d.name.text)) d.value
          hparentheses hcurrent' hat' hfits hmid
        refine ⟨after, hafter, ?_⟩
        rw [hname, hread]
        simp [extend, namesAfter, String.append_assoc]
      cases value with
      | none => exact hcomma text hlaid
      | some e =>
          have hzero : s.endToken.parentheses = 0 := by rw [parentheses_endToken, hparentheses]
          obtain ⟨start, hstart, hread⟩ := (Stands.of_apart hat hapart).read_equals hzero hlaid
          obtain ⟨next, hnext, hend⟩ := e.initializerEnd_comma hstart
          rw [hread, hend, reopen_endToken hcurrent hat]
          exact hcomma next hnext

end OpenStatement

/-! ## Declarations of variables -/

/-- A declaration of fields or of local variables. -/
structure VariableDeclaration where
  modifiers : List Modifier
  type : WrittenType
  first : Declarator
  more : List Declarator

namespace VariableDeclaration

/-- The lexemes of a declaration with its semicolon. -/
def lexemes (d : VariableDeclaration) : List Lexeme :=
  modifierLexemes d.modifiers ++ (d.type.lexemes ++ .word d.first.name.toWord ::
    (valueLexemes d.first.value ++ (declaratorLexemes d.more ++ [.mark ';'])))

/-- The tokens of a declaration. -/
def tokens (d : VariableDeclaration) : List String :=
  d.modifiers.map Modifier.text ++ [d.type.text, d.first.name.text ++ namesAfter (d.more.map Declarator.name)]

/-- The names of the variables. -/
def names (d : VariableDeclaration) : List Name := (d.first :: d.more).map Declarator.name

/-- A variable of the declaration, with what the modifiers say. -/
def member (d : VariableDeclaration) (name : Name) : Member where
  name := name.text
  type := some d.type.text
  isFinal := (modifiersOf d.modifiers).isFinal
  access := (modifiersOf d.modifiers).access
  isStatic := (modifiersOf d.modifiers).isStatic

/-- The variables whose names are kept. -/
def members (keep : Name → Bool) (d : VariableDeclaration) : List Member :=
  (d.names.filter keep).map d.member

end VariableDeclaration

theorem takes_modifiers (k : OpenStatement) (ms : List Modifier) :
    Takes Lexeme.Follows k (modifierLexemes ms) (k.takeAll (ms.map Modifier.text)) := by
  have hwords := takes_words k (ms.map Modifier.word)
  rw [List.map_map, List.map_map] at hwords
  exact hwords

/-- Modifiers and a type are tokens of their own. -/
theorem takes_modifiedType (ms : List Modifier) (type : WrittenType) :
    Takes Lexeme.Follows start (modifierLexemes ms ++ type.lexemes)
      ((start.takeAll (ms.map Modifier.text)).take type.text) := by
  apply (takes_modifiers start ms).append (takes_type type rfl) (fun _ _ hl => hl)
  intro y hy
  cases hy
  trivial

theorem modifiedType_head? (ms : List Modifier) (type : WrittenType) :
    (modifierLexemes ms ++ type.lexemes).head? ≠ some (.mark '/') := by
  cases ms with
  | nil => simp [modifierLexemes, WrittenType.lexemes, ClassType.lexemes]
  | cons m ms => simp [modifierLexemes]

/-- A declaration of variables is one statement. -/
theorem scan_variables (d : VariableDeclaration) {more : List Lexeme} {text rest : List Char}
    (hlaid : Laid (d.lexemes ++ more) text rest) : ∃ after, Laid more after rest ∧
      scan text = some (⟨d.tokens, .semicolon⟩, after) := by
  have hsplit : d.lexemes ++ more = modifierLexemes d.modifiers ++ d.type.lexemes ++
      .word d.first.name.toWord :: (valueLexemes d.first.value ++
        (declaratorLexemes d.more ++ .mark ';' :: more)) := by
    simp [VariableDeclaration.lexemes]
  rw [hsplit] at hlaid
  obtain ⟨t, mid, ht, hmid, hscan⟩ := (takes_modifiedType d.modifiers d.type).scan_eq (by trivial)
    (modifiedType_head? d.modifiers d.type) (by simp) hlaid
  obtain ⟨mid', hfits, hmid', hword⟩ := ht.read_word hmid
  have hname := d.first.name.ne_empty
  obtain ⟨after, hafter, hend⟩ := read_declarators d.first.value d.more rfl
    (by simpa [extend, ht.current_eq] using hname) (d.first.name.notAt_extend ht.current_eq)
    hfits hmid'
  refine ⟨after, hafter, ?_⟩
  rw [hscan, hword, hend]
  simp [VariableDeclaration.tokens, extend, take, takeAll, start]

/-! ## What they declare -/

/-- A list that is filtered stays as it is only if everything is kept. -/
theorem map_filter_eq_iff {α β : Type} (f : α → β) (keep : α → Bool) (as : List α) :
    (as.filter keep).map f = as.map f ↔ ∀ a ∈ as, keep a = true := by
  constructor
  · intro h
    have hlength := congrArg List.length h
    rw [List.length_map, List.length_map] at hlength
    exact List.filter_eq_self.1 (List.filter_sublist.eq_of_length hlength)
  · intro h
    rw [List.filter_eq_self.2 h]

/-- A word holds none of the characters that are not plain. -/
theorem Word.not_mem (w : Word) {c : Char} (hc : isPlain c = false) : c ∉ w.text.toList := by
  intro h
  rw [w.isPlain_of_mem h] at hc
  cases hc

theorem Word.isArrayBracket_eq_false (w : Word) :
    ∀ c ∈ w.text.toList, isArrayBracket c = false := by
  intro c hc
  cases h : isArrayBracket c with
  | false => rfl
  | true =>
      have hbracket : c = '[' ∨ c = ']' := by simpa [isArrayBracket] using h
      have hnot : isPlain c = false := by rcases hbracket with rfl | rfl <;> decide
      exact absurd hc (w.not_mem hnot)

/-- A list of names is cut into the names. -/
theorem nameList_namesAfter (n : Name) (ns : List Name) :
    nameList (n.text ++ namesAfter ns) = (n :: ns).map fun name => name.text := by
  induction ns generalizing n with
  | nil =>
      have hcomma := n.not_mem (c := ',') (by decide)
      simp [nameList, namesAfter, pieces_of_not_mem hcomma]
  | cons m ns ih =>
      have hcomma := n.not_mem (c := ',') (by decide)
      have hrest := ih m
      have htext : (n.text ++ namesAfter (m :: ns)).toList =
          n.text.toList ++ ',' :: (m.text ++ namesAfter ns).toList := by
        simp [namesAfter]
      rw [nameList] at hrest ⊢
      rw [htext, pieces_append hcomma, List.map_cons, hrest]
      simp

/-- A name of a variable is declared as it is. -/
theorem Word.declare_eq (w : Word) (type : Option String) (isFinal : Bool) :
    Variable.declare w.text type isFinal = ⟨w.text, type, isFinal⟩ := by
  obtain ⟨hdrop, htake⟩ := dropTrailing_of_forall_not w.isArrayBracket_eq_false
  simp [Variable.declare, hdrop, htake]

theorem Name.isDeclarable_eq (n : Name) : isDeclarable n.text = n.isDeclared := by
  obtain ⟨hdrop, _⟩ := dropTrailing_of_forall_not n.isArrayBracket_eq_false
  rw [isDeclarable, hdrop, Name.isDeclared]

theorem VariableDeclaration.variablesOf_eq (d : VariableDeclaration) :
    (modifiersOf d.modifiers).variablesOf d.type.text
      (d.first.name.text ++ namesAfter (d.more.map Declarator.name)) = d.members Name.isDeclared := by
  have hnames : nameList (d.first.name.text ++ namesAfter (d.more.map Declarator.name)) =
      d.names.map fun name => name.text := by
    rw [nameList_namesAfter]
    rfl
  have hfilter : (d.names.map fun name => name.text).filter isDeclarable =
      (d.names.filter Name.isDeclared).map fun name => name.text := by
    rw [List.filter_map]
    congr 2
    funext name
    exact name.isDeclarable_eq
  rw [Modifiers.variablesOf, hnames, hfilter, List.map_map, VariableDeclaration.members]
  apply List.map_congr_left
  intro name _
  simp [Modifiers.member, Member.declare, Word.declare_eq, VariableDeclaration.member]

/-- A type and names without a parenthesis after them declare variables. -/
theorem Modifiers.declare_variables {m : Modifiers} {type names : String} {others : List String}
    (h : names ≠ "(") (hothers : others.head? ≠ some "(") :
    m.declare (type :: names :: others) = .fields (m.variablesOf type names) := by
  unfold Modifiers.declare
  split
  · simp_all
  · simp_all
  · simp_all
  · next hnot => exact absurd rfl (hnot type names others)

/-- In a body, a declaration of variables declares those whose names are
identifiers.  In the body of a method it may not begin with an inert
modifier. -/
theorem VariableDeclaration.reading (d : VariableDeclaration) {level : Level} (hlevel : level ≠ .file)
    (hinert : level = .methodBody → ∀ x ∈ d.modifiers.head?, isInert x.text = false) :
    Reading.ofTokens level d.tokens = .declaring (.fields (d.members Name.isDeclared)) := by
  rw [Reading.ofTokens, VariableDeclaration.tokens,
    Reading.ofTokensAfter_modifiers level _ _ _ _ (fun h _ => hinert h),
    Reading.ofTokensAfter_member d.type.free d.type.not_head?_angle hlevel]
  have hnames : d.first.name.text ++ namesAfter (d.more.map Declarator.name) ≠ "(" := by
    intro h
    obtain ⟨e, es, hname, hfirst, _⟩ := d.first.name.exists_cons
    have hchars := congrArg String.toList h
    rw [String.toList_append, hname, List.cons_append] at hchars
    have hopen : e = '(' := (List.cons.inj hchars).1
    rw [hopen] at hfirst
    exact absurd hfirst (by decide)
  have hdeclare : (modifiersOf d.modifiers).declare
      [d.type.text, d.first.name.text ++ namesAfter (d.more.map Declarator.name)] =
        .fields (d.members Name.isDeclared) := by
    rw [Modifiers.declare_variables hnames (by simp), d.variablesOf_eq]
  rw [Reading.member, ← modifiersOf, hdeclare]
  simp

end JavaOutline