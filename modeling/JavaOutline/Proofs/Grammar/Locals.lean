import JavaOutline.Proofs.Grammar.Calls
import JavaOutline.Proofs.Restoring

/-!
# JavaOutline.Proofs.Grammar.Locals

The variables of a method are those that its body declares, whatever blocks
they stand in.

The proof is an induction on the body (`Block.reads`): reading a block up
to its brace adds its variables to the record of the method, the depth of
blocks is what it was, and the next statement is the one after the brace.
-/

namespace JavaOutline

open Text OpenStatement

/-! ## Simple statements -/

/-- An initializer after some lexemes is passed over. -/
theorem Takes.scan_equals {F : Lexeme → Prop} {k : OpenStatement} {ls more : List Lexeme}
    {text rest : List Char} (h : Takes F start ls k) (hl : F (.mark '='))
    (hslash : ls.head? ≠ some (.mark '/')) (hparentheses : k.parentheses = 0) (e : Expression)
    (hlaid : Laid (ls ++ .mark '=' :: (e.lexemes ++ .mark ';' :: more)) text rest) :
    ∃ after, Laid more after rest ∧ scan text = some (⟨k.tokens, .semicolon⟩, after) := by
  obtain ⟨t, mid, ht, hmid, hscan⟩ := h.scan_eq hl hslash (by simp) hlaid
  obtain ⟨start, hstart, hread⟩ := ht.read_equals hparentheses hmid
  obtain ⟨after, hafter, hend⟩ := (Nests.of_nests e.nests).initializerEnd_semicolon hstart
  rw [hend] at hread
  exact ⟨after, hafter, hscan.trans hread⟩

/-- The declaration of a local variable is one statement. -/
theorem scan_localVariable (d : LocalVariable) {more : List Lexeme} {text rest : List Char}
    (hlaid : Laid (d.lexemes ++ more) text rest) : ∃ after, Laid more after rest ∧
      scan text = some (⟨d.declaration.tokens, .semicolon⟩, after) := by
  have hname := (takes_type d.type
    (k := start.takeAll (d.declaration.modifiers.map Modifier.text)) rfl).append
      (takes_word _ d.name.toWord) (fun _ _ hl => hl) (by intro y hy; cases hy; trivial)
  have hall : Takes Lexeme.Follows start d.namedLexemes (start.takeAll d.declaration.tokens) := by
    have htakes := (takes_modifiers start d.declaration.modifiers).append hname
      (fun hnil => absurd hnil (by simp)) (by intro y hy; cases hy; trivial)
    simpa [LocalVariable.namedLexemes, VariableDeclaration.tokens, LocalVariable.declaration,
      namesAfter, takeAll, take] using htakes
  have hslash : d.namedLexemes.head? ≠ some (.mark '/') := by
    cases hfinal : d.isFinal <;>
      simp [LocalVariable.namedLexemes, LocalVariable.declaration, hfinal, modifierLexemes,
        WrittenType.lexemes, ClassType.lexemes]
  cases hvalue : d.value with
  | none =>
      rw [LocalVariable.lexemes, hvalue, List.append_assoc] at hlaid
      obtain ⟨after, hafter, hscan⟩ := hall.scan_semicolon (by simp [Lexeme.Follows]) hslash rfl hlaid
      exact ⟨after, hafter, by simpa using hscan⟩
  | some e =>
      rw [LocalVariable.lexemes, hvalue, List.append_assoc, List.cons_append,
        List.append_assoc] at hlaid
      obtain ⟨after, hafter, hscan⟩ := hall.scan_equals (by simp [Lexeme.Follows]) hslash rfl e hlaid
      exact ⟨after, hafter, by simpa using hscan⟩

/-- A label is one statement, which begins with a keyword of labels. -/
theorem scan_switchLabel (label : SwitchLabel) {more : List Lexeme} {text rest : List Char}
    (hlaid : Laid (label.lexemes ++ .mark ':' :: more) text rest) : ∃ tokens after,
      Reading.ofTokens .methodBody tokens = .nothing ∧ Laid more after rest ∧
        scan text = some (⟨tokens, .label⟩, after) := by
  cases label with
  | otherwise =>
      obtain ⟨after, hafter, hscan⟩ := (takes_word start defaultWord).scan_label
        (by simp [Lexeme.Follows]) (by simp) rfl rfl hlaid
      exact ⟨_, after, Reading.ofTokens_inert (by decide) [], hafter, hscan⟩
  | constant q =>
      have htakes := (takes_word start caseWord).append
        (takes_qualifiedName q (k := start.take caseWord.text) rfl) (fun _ _ hl => hl)
        (by intro y hy; cases hy; trivial)
      obtain ⟨after, hafter, hscan⟩ :=
        htakes.scan_label (by simp [Lexeme.Follows]) (by simp) rfl rfl hlaid
      exact ⟨_, after, Reading.ofTokens_inert (by decide) [q.text], hafter, hscan⟩
  | literal q =>
      -- The literal is no token, and the keyword has ended before it.
      obtain ⟨text', hlaid', hscan⟩ := scan_eq_read (by simp) hlaid
      obtain ⟨mid, hfits, hmid, hword⟩ := (stands_start text').read_word hlaid'
      obtain ⟨mid', hmid', hbegun⟩ :=
        (caseWord.stands_extend (k := start) rfl hfits).read_begun rfl rfl hmid
      have hloose : Loose (start.take caseWord.text) mid' := .of_current_eq_empty rfl mid'
      obtain ⟨t, last, ht, hgrows, hparentheses, hlast, hliteral⟩ := hloose.read_literal hmid'
      have hended := (hgrows.trans (Grows.endToken ht.plainly))
      have hhead : t.endToken.tokens.head? = some "case" := hended.head?_eq rfl
      have hzero : t.endToken.parentheses = 0 := by rw [parentheses_endToken, hparentheses]; rfl
      obtain ⟨after, hafter, hend⟩ := (ht.stands hlast (by decide)).read_label hzero
        (by simp [OpenStatement.endsInLabel, hhead]) hlast
      refine ⟨_, after, ?_, hafter, hscan.trans (hword.trans (hbegun.trans (hliteral.trans hend)))⟩
      obtain ⟨others, hothers⟩ := List.head?_eq_some_iff.1 hhead
      rw [hothers]
      exact Reading.ofTokens_inert (by decide) others

/-! ## What they declare -/

/-- The variable that is declared, as a member of the record of the
method. -/
def LocalVariable.member (d : LocalVariable) : Member := d.declaration.member d.name

theorem LocalVariable.toVariable_member (d : LocalVariable) : d.member.toVariable = d.declared := by
  have hfinal : (modifiersOf (if d.isFinal then [finalModifier] else [])).isFinal = d.isFinal := by
    cases d.isFinal <;> rfl
  simp [member, VariableDeclaration.member, declared, declaration, hfinal]

/-- The declared variables whose names are identifiers, as members. -/
def membersOf (ds : List LocalVariable) : List Member :=
  (ds.filter fun d => d.name.isDeclared).map LocalVariable.member

@[simp] theorem membersOf_nil : membersOf [] = [] := rfl

@[simp] theorem membersOf_append (ds ds' : List LocalVariable) :
    membersOf (ds ++ ds') = membersOf ds ++ membersOf ds' := by
  simp [membersOf]

theorem LocalVariable.reading (d : LocalVariable) :
    Reading.ofTokens .methodBody d.declaration.tokens =
      .declaring (.fields (membersOf [d])) := by
  have hmembers : d.declaration.members Name.isDeclared = membersOf [d] := by
    cases hkept : d.name.isDeclared <;>
      simp [VariableDeclaration.members, VariableDeclaration.names, declaration, membersOf, member,
        hkept]
  have hinert : ∀ x ∈ d.declaration.modifiers.head?, isInert x.text = false := by
    rw [declaration]
    cases d.isFinal with
    | false => simp
    | true =>
        intro x hx
        cases hx
        decide
  rw [d.declaration.reading (by simp) (fun _ => hinert), hmembers]

namespace Progress

variable (withLocals : Bool) {p : Progress} {more : List Lexeme} {text rest : List Char}

/-- A statement that says nothing is passed over. -/
theorem read_nothing {tokens : List String} {ending : Ending (List Char)} {after : List Char}
    (hscan : scan text = some (⟨tokens, ending⟩, after))
    (hending : ending = .semicolon ∨ ending = .label)
    (hnothing : Reading.ofTokens p.nesting.level tokens = .nothing) :
    p.read withLocals text = p.read withLocals after := by
  rw [read_of_scan hscan, hnothing]
  rcases hending with rfl | rfl <;> rfl

/-- A simple statement adds the variable that it declares, if it does. -/
theorem read_simple (s : SimpleStatement) (hplain : s.isPlain = true)
    (hlevel : p.nesting.level = .methodBody) (hlaid : Laid (s.lexemes ++ more) text rest) :
    ∃ after, Laid more after rest ∧ p.read withLocals text =
      (p.mapRecord (TypeRecord.addFields (membersOf s.declarations))).read withLocals after := by
  have hpassed : ∀ {tokens : List String} {ending : Ending (List Char)} {after : List Char},
      scan text = some (⟨tokens, ending⟩, after) → ending = .semicolon ∨ ending = .label →
      Reading.ofTokens .methodBody tokens = .nothing →
      p.read withLocals text = (p.mapRecord (TypeRecord.addFields [])).read withLocals after := by
    intro tokens ending after hscan hending hnothing
    rw [read_nothing withLocals hscan hending (hlevel ▸ hnothing), mapRecord_addFields_nil]
  cases s with
  | declaration d =>
      obtain ⟨after, hafter, hscan⟩ := scan_localVariable d hlaid
      exact ⟨after, hafter, read_fields withLocals hscan (hlevel ▸ d.reading)⟩
  | assignment name value =>
      rw [SimpleStatement.lexemes, List.append_assoc, List.cons_append, List.append_assoc] at hlaid
      obtain ⟨after, hafter, hscan⟩ := (takes_qualifiedName name
        (k := OpenStatement.start) rfl).scan_equals
        (by simp [Lexeme.Follows]) (by simp [QualifiedName.lexemes]) rfl value hlaid
      have hcallee := IsCallee.text_qualifiedName name
      exact ⟨after, hafter,
        hpassed hscan (.inl rfl) (Reading.ofTokens_name hcallee.free hcallee.not_head?_angle)⟩
  | call c =>
      rw [SimpleStatement.lexemes, List.append_assoc] at hlaid
      obtain ⟨tokens, after, hnothing, hafter, hscan⟩ := scan_call c hlaid
      exact ⟨after, hafter, hpassed hscan (.inl rfl) hnothing⟩
  | result e =>
      rw [SimpleStatement.lexemes, List.cons_append, List.append_assoc] at hlaid
      obtain ⟨tokens, after, hhead, hafter, hscan⟩ := e.scan_return hplain hlaid
      obtain ⟨others, rfl⟩ := List.head?_eq_some_iff.1 hhead
      exact ⟨after, hafter, hpassed hscan (.inl rfl) (Reading.ofTokens_inert (by decide) others)⟩
  | leave =>
      obtain ⟨after, hafter, hscan⟩ := (takes_word OpenStatement.start breakWord).scan_semicolon
        (by simp [Lexeme.Follows]) (by simp) rfl hlaid
      exact ⟨after, hafter, hpassed hscan (.inl rfl) (Reading.ofTokens_inert (by decide) [])⟩
  | label l =>
      rw [SimpleStatement.lexemes, List.append_assoc] at hlaid
      obtain ⟨tokens, after, hnothing, hafter, hscan⟩ := scan_switchLabel l hlaid
      exact ⟨after, hafter, hpassed hscan (.inr rfl) hnothing⟩

/-- The head of a block enters it. -/
theorem read_head (head : BlockHead) (hlevel : p.nesting.level = .methodBody)
    (hlaid : Laid (head.lexemes ++ .mark '\x7b' :: more) text rest) : ∃ body, Laid more body rest ∧
      p.read withLocals text =
        ({ p with nesting := p.nesting.enterBlock } : Progress).read withLocals body := by
  obtain ⟨tokens, body, after, hnothing, hnew, hbody, hscan⟩ := scan_head head hlaid
  refine ⟨body, hbody, ?_⟩
  rw [read_of_scan hscan, hlevel, hnothing]
  simp [readAfter, Reading.nothing, declare, entersBlock, hlevel, hnew]

/-- The brace after a block leaves it. -/
theorem read_closeBlock {n : Nesting (List Char)} (hleave : p.nesting.leaveBlock? = some n)
    (hlaid : Laid (.mark '\x7d' :: more) text rest) : ∃ after, Laid more after rest ∧
      p.read withLocals text = ({ p with nesting := n } : Progress).read withLocals after := by
  obtain ⟨after, hafter, hscan⟩ := (Takes.nil (F := fun _ => True)).scan_closeBrace trivial (by simp)
    rfl hlaid
  refine ⟨after, hafter, ?_⟩
  rw [read_of_scan hscan, tokens_start, Reading.ofTokens_nil]
  simp [readAfter, Reading.nothing, declare, hleave]

/-- A local type is passed over, whatever its body holds; the type around
knows it. -/
theorem read_localType (h : TypeHeading) (body : LocalBody)
    (hplain : h.isPlain = true)
    (hlaid : Laid (h.lexemes ++ .mark '\x7b' :: (body.lexemes ++ .mark '\x7d' :: more)) text rest) :
    ∃ records after, Laid more after rest ∧ p.read withLocals text =
      (⟨p.nesting.mapEnclosing fun outer =>
          outer.addImport h.name.text (qualify p.nesting.scope.path h.name.text),
        p.records ++ records⟩ : Progress).read withLocals after := by
  obtain ⟨inside, hinside, hscan⟩ := scan_heading h hlaid
  have hafter := (passes_of_nests body.nests).afterBracket_eq hinside
  have hinert : ∀ x ∈ h.modifiers.head?, isInert x.text = false := by
    intro x hx
    rw [Option.mem_def] at hx
    rw [TypeHeading.isPlain, hx] at hplain
    simpa using hplain
  obtain ⟨records, hclosed⟩ := closeType_read withLocals p h.header
    (afterBracket '\x7b' '\x7d' 0 inside) inside
  refine ⟨records, _, hafter, ?_⟩
  rw [read_of_scan hscan, h.reading fun _ => hinert]
  simp only [readAfter, Reading.declaring, List.foldl_nil, hclosed]
  rfl

end Progress

/-! ## Blocks -/

/-- Reading a block up to the brace after it adds its variables to the
record of its method.  Reading goes on at the brace, as deep in blocks as
before. -/
def Block.Reads (withLocals : Bool) (b : Block) : Prop :=
  ∀ (n : Nesting (List Char)) (depth : Nat) (scope : Scope) (record : TypeRecord)
    (resume : List Char) (records : List TypeRecord) (more : List Lexeme) (text rest : List Char),
    Laid (b.lexemes ++ .mark '\x7d' :: more) text rest → ∃ types after,
      Laid (.mark '\x7d' :: more) after rest ∧
        (⟨n.push ⟨.methodBody depth, scope, record, resume⟩, records⟩ : Progress).read withLocals
            text =
          (⟨(b.knownTypes scope.path n).push ⟨.methodBody depth, scope,
            record.addFields (membersOf b.declarations), resume⟩, records ++ types⟩ :
              Progress).read withLocals after

/-- Blocks are read as they are nested. -/
theorem Block.reads (withLocals : Bool) (b : Block) (hplain : b.isPlain = true) :
    b.Reads withLocals := by
  induction b with
  | nil =>
      intro n depth scope record resume records more text rest hlaid
      refine ⟨[], text, hlaid, ?_⟩
      simp [knownTypes, declarations, membersOf, TypeRecord.addFields]
  | simple s next ih =>
      intro n depth scope record resume records more text rest hlaid
      rw [isPlain, Bool.and_eq_true] at hplain
      rw [lexemes, List.append_assoc] at hlaid
      obtain ⟨mid, hmid, hsimple⟩ := Progress.read_simple withLocals
        (p := ⟨n.push ⟨.methodBody depth, scope, record, resume⟩, records⟩) s hplain.1 rfl hlaid
      obtain ⟨types, after, hafter, hnext⟩ := ih hplain.2 n depth scope
        (record.addFields (membersOf s.declarations)) resume records more mid rest hmid
      refine ⟨types, after, hafter, hsimple.trans (hnext.trans ?_)⟩
      simp [knownTypes, declarations, membersOf, TypeRecord.addFields]
  | block head inside next hinside ih =>
      intro n depth scope record resume records more text rest hlaid
      rw [isPlain, Bool.and_eq_true] at hplain
      rw [lexemes, List.append_assoc, List.cons_append, List.append_assoc, List.cons_append] at hlaid
      obtain ⟨body, hbody, hhead⟩ := Progress.read_head withLocals
        (p := ⟨n.push ⟨.methodBody depth, scope, record, resume⟩, records⟩) head rfl hlaid
      -- One block deeper, the statements inside are read up to their brace.
      obtain ⟨types, mid, hmid, hread⟩ := hinside hplain.1 n (depth + 1) scope record resume records
        _ body rest hbody
      obtain ⟨start, hstart, hclose⟩ := Progress.read_closeBlock withLocals
        (p := ⟨(inside.knownTypes scope.path n).push ⟨.methodBody (depth + 1), scope,
          record.addFields (membersOf inside.declarations), resume⟩, records ++ types⟩) rfl hmid
      obtain ⟨others, after, hafter, hnext⟩ := ih hplain.2 (inside.knownTypes scope.path n) depth
        scope (record.addFields (membersOf inside.declarations)) resume (records ++ types) more
        start rest hstart
      refine ⟨types ++ others, after, hafter, ?_⟩
      refine hhead.trans (hread.trans (hclose.trans (hnext.trans ?_)))
      simp [knownTypes, declarations, membersOf, TypeRecord.addFields]
  | type h body next ih =>
      intro n depth scope record resume records more text rest hlaid
      rw [isPlain, Bool.and_eq_true] at hplain
      rw [lexemes, List.append_assoc, List.cons_append, List.append_assoc, List.cons_append] at hlaid
      obtain ⟨types, mid, hmid, htype⟩ := Progress.read_localType withLocals
        (p := ⟨n.push ⟨.methodBody depth, scope, record, resume⟩, records⟩) h body hplain.1 hlaid
      obtain ⟨others, after, hafter, hnext⟩ := ih hplain.2
        (n.mapEnclosing fun outer =>
          outer.addImport h.name.text (qualify scope.path h.name.text)) depth scope record resume
        (records ++ types) more mid rest hmid
      refine ⟨types ++ others, after, hafter, htype.trans (hnext.trans ?_)⟩
      simp [knownTypes, declarations]

/-- If nothing is misread, all declarations come before what is. -/
theorem Block.firstDeclarations_of_isPlain (b : Block) (hplain : b.isPlain = true) :
    b.firstDeclarations = b.declarations := by
  induction b with
  | nil => rfl
  | simple s next ih =>
      rw [isPlain, Bool.and_eq_true] at hplain
      rw [firstDeclarations, if_pos hplain.1, ih hplain.2, declarations]
  | block head inside next hinside ih =>
      rw [isPlain, Bool.and_eq_true] at hplain
      rw [firstDeclarations, if_pos hplain.1, hinside hplain.1, ih hplain.2, declarations]
  | type h body next ih =>
      rw [isPlain, Bool.and_eq_true] at hplain
      rw [firstDeclarations, if_pos hplain.1, ih hplain.2, declarations]

/-- Whatever a block holds, the variables before its first misread statement
are found. -/
theorem Block.reads_first (withLocals : Bool) (b : Block) (n : Nesting (List Char)) (depth : Nat)
    (scope : Scope) (record : TypeRecord) (resume : List Char) (records : List TypeRecord)
    {more : List Lexeme} {text rest : List Char}
    (hlaid : Laid (b.lexemes ++ .mark '\x7d' :: more) text rest) :
    ∃ (n' : Nesting (List Char)) (depth' : Nat) (records' : List TypeRecord) (after : List Char),
      (⟨n.push ⟨.methodBody depth, scope, record, resume⟩, records⟩ : Progress).read withLocals
          text =
        (⟨n'.push ⟨.methodBody depth', scope, record.addFields (membersOf b.firstDeclarations),
          resume⟩, records'⟩ : Progress).read withLocals after := by
  induction b generalizing n depth record records more text with
  | nil => exact ⟨n, depth, records, text, by simp [firstDeclarations]⟩
  | simple s next ih =>
      rw [lexemes, List.append_assoc] at hlaid
      by_cases hplain : s.isPlain = true
      · obtain ⟨mid, hmid, hsimple⟩ := Progress.read_simple withLocals
          (p := ⟨n.push ⟨.methodBody depth, scope, record, resume⟩, records⟩) s hplain rfl hlaid
        obtain ⟨n', depth', records', after, hnext⟩ := ih n depth
          (record.addFields (membersOf s.declarations)) records hmid
        refine ⟨n', depth', records', after, hsimple.trans (hnext.trans ?_)⟩
        simp [firstDeclarations, hplain]
      · exact ⟨n, depth, records, text, by simp [firstDeclarations, hplain]⟩
  | block head inside next hinside ih =>
      rw [lexemes, List.append_assoc, List.cons_append, List.append_assoc, List.cons_append] at hlaid
      obtain ⟨body, hbody, hhead⟩ := Progress.read_head withLocals
        (p := ⟨n.push ⟨.methodBody depth, scope, record, resume⟩, records⟩) head rfl hlaid
      obtain ⟨n', depth', records', after, hfirst⟩ :=
        hinside n (depth + 1) record records hbody
      by_cases hplain : inside.isPlain = true
      · obtain ⟨types, mid, hmid, hread⟩ := inside.reads withLocals hplain n (depth + 1) scope record
          resume records _ body rest hbody
        obtain ⟨start, hstart, hclose⟩ := Progress.read_closeBlock withLocals
          (p := ⟨(inside.knownTypes scope.path n).push ⟨.methodBody (depth + 1), scope,
            record.addFields (membersOf inside.declarations), resume⟩, records ++ types⟩) rfl hmid
        obtain ⟨n', depth', records', after, hnext⟩ := ih (inside.knownTypes scope.path n) depth
          (record.addFields (membersOf inside.declarations)) (records ++ types) hstart
        refine ⟨n', depth', records', after, hhead.trans (hread.trans (hclose.trans (hnext.trans ?_)))⟩
        simp [firstDeclarations, hplain, inside.firstDeclarations_of_isPlain hplain]
      · refine ⟨n', depth', records', after, hhead.trans (hfirst.trans ?_)⟩
        simp [firstDeclarations, hplain]
  | type h body next ih =>
      rw [lexemes, List.append_assoc, List.cons_append, List.append_assoc, List.cons_append] at hlaid
      by_cases hplain : h.isPlain = true
      · obtain ⟨types, mid, hmid, htype⟩ := Progress.read_localType withLocals
          (p := ⟨n.push ⟨.methodBody depth, scope, record, resume⟩, records⟩) h body hplain hlaid
        obtain ⟨n', depth', records', after, hnext⟩ := ih
          (n.mapEnclosing fun outer =>
            outer.addImport h.name.text (qualify scope.path h.name.text)) depth record
          (records ++ types) hmid
        refine ⟨n', depth', records', after, htype.trans (hnext.trans ?_)⟩
        simp [firstDeclarations, hplain]
      · exact ⟨n, depth, records, text, by simp [firstDeclarations, hplain]⟩

/-! ## Methods -/

/-- The kept variables of a block are as many as all of them only if every
name is kept. -/
theorem Block.keptVariables_eq_iff (b : Block) : b.keptVariables Name.isDeclared = b.keptVariables everyName ↔
    ∀ d ∈ b.declarations, d.name.isDeclared = true := by
  have hall : (b.declarations.filter fun d => everyName d.name) = b.declarations :=
    List.filter_eq_self.2 fun _ _ => rfl
  rw [keptVariables, keptVariables, declaredVariables, declaredVariables, hall]
  exact map_filter_eq_iff _ _ b.declarations

theorem fieldVariables_membersOf (ds : List LocalVariable) (imports : ImportTable) :
    ((TypeRecord.locals imports).addFields (membersOf ds)).fieldVariables =
      declaredVariables Name.isDeclared ds := by
  simp only [TypeRecord.fieldVariables, TypeRecord.addFields, Progress.fields_locals,
    List.nil_append, membersOf, declaredVariables, List.map_map]
  apply List.map_congr_left
  intro d _
  exact d.toVariable_member

/-- **The variables of a method.**  Whatever a body of the grammar holds and
however it is laid out, reading goes on with the statement after the brace
of the method, in the same type with all its members, and the first variables of the method are
those that the body declares before anything in it is misread.  If nothing
is misread, the method has the variables that the body declares, in their
order, as far as their names are identifiers. -/
theorem Block.read_eq_addMethod {p : Progress} (hlevel : p.nesting.level = .typeBody)
    {text body after rest : List Char} {tokens : List String} {method : Method}
    (hscan : scan text = some (⟨tokens, .block body after⟩, after))
    (hmethod : Reading.ofTokens .typeBody tokens = .declaring (.method method)) (b : Block)
    {more : List Lexeme} (hlaid : Laid (b.lexemes ++ .mark '\x7d' :: more) body rest) :
    Laid more after rest ∧
      (∃ q locals, p.Keeps q ∧ p.KeepsMembers q ∧
        p.read true text =
          (q.mapRecord fun record => record.addMethod { method with locals }).read true after ∧
        b.firstVariables Name.isDeclared <+: locals ∧
        (b.isPlain = true →
          q.nesting = b.knownTypes p.nesting.scope.path p.nesting ∧
            locals = b.keptVariables Name.isDeclared)) ∧
      (b.keptVariables Name.isDeclared = b.keptVariables everyName ↔
        ∀ d ∈ b.declarations, d.name.isDeclared = true) := by
  refine ⟨?_, ?_, b.keptVariables_eq_iff⟩
  · rw [rest_eq_of_scan hscan rfl]
    exact b.balanced.passes.afterBracket_eq hlaid
  have hread : p.read true text =
      (((p.openMethod after).read true body).closeMethod method).read true after := by
    rw [Progress.read_of_scan hscan, hlevel, hmethod]
    rfl
  obtain ⟨n, frame, hpush, hkeeps, hmembers⟩ :=
    Progress.exists_push_openMethod true p after body
  rw [Progress.closeMethod_of_push hpush] at hread
  obtain ⟨imports, hopened⟩ : ∃ imports, p.openMethod after =
      ⟨p.nesting.push ⟨.methodBody 0, p.nesting.scope, .locals imports, after⟩, p.records⟩ :=
    ⟨_, rfl⟩
  rw [hopened] at hpush
  refine ⟨_, _, hkeeps, hmembers, hread, ?_, fun hplain => ?_⟩
  · obtain ⟨first, depth, records, mid, hfirst⟩ := b.reads_first true p.nesting 0 p.nesting.scope
      (.locals imports) after p.records hlaid
    -- Reading on keeps the variables that have been found.
    obtain ⟨last, frame', hpush', hfields, _⟩ :=
      (Progress.keeps_read true ⟨first.push ⟨.methodBody depth, p.nesting.scope,
        (TypeRecord.locals imports).addFields (membersOf b.firstDeclarations), after⟩,
          records⟩ mid).exists_push rfl rfl
    rw [hfirst, hpush'] at hpush
    have hframe : frame' = frame := by
      simp only [Nesting.push, Nesting.mk.injEq, List.cons.injEq] at hpush
      exact hpush.2.1
    rw [hframe] at hfields
    rw [firstVariables, ← fieldVariables_membersOf]
    exact hfields.map Member.toVariable
  · obtain ⟨types, mid, hmid, hblock⟩ := b.reads true hplain p.nesting 0 p.nesting.scope
      (.locals imports) after p.records more body rest hlaid
    rw [Progress.read_closeBrace true rfl hmid] at hblock
    rw [hblock] at hpush
    obtain ⟨file, frames⟩ := n
    simp only [Nesting.push, Nesting.mk.injEq, List.cons.injEq] at hpush
    obtain ⟨hfile, rfl, hframes⟩ := hpush
    refine ⟨?_, fieldVariables_membersOf _ _⟩
    rw [← hfile, ← hframes]

namespace Block

/-- The body of a method with blocks, calls and a local type. -/
def counting : Block :=
  .simple (.declaration ⟨true, ⟨⟨⟨⟨⟨"int", by decide⟩, by decide⟩, []⟩, none⟩, 0⟩,
    ⟨⟨"n", by decide⟩, by decide⟩,
    some ⟨[.word ⟨"size", by decide⟩, .mark '(', .word ⟨"k", by decide⟩, .mark ',',
      .word ⟨"1", by decide⟩, .mark ')'], by decide, by decide, by decide⟩⟩)
  (.block (.guarded ⟨⟨"for", by decide⟩, by decide⟩ [] ⟨[.word ⟨"int", by decide⟩,
      .word ⟨"i", by decide⟩, .mark '=', .word ⟨"0", by decide⟩, .mark ';',
      .word ⟨"i", by decide⟩, .mark '<', .word ⟨"n", by decide⟩, .mark ';',
      .word ⟨"i++", by decide⟩], by decide⟩)
    (.block (.guarded ⟨⟨"if", by decide⟩, by decide⟩ [] ⟨[.word ⟨"i", by decide⟩, .mark '<',
        .word ⟨"2", by decide⟩], by decide⟩)
      (.simple (.declaration ⟨false, ⟨⟨⟨⟨⟨"Item", by decide⟩, by decide⟩, []⟩, none⟩, 1⟩,
        ⟨⟨"n", by decide⟩, by decide⟩, none⟩) .nil)
    (.block (.keyword ⟨⟨"else", by decide⟩, by decide⟩)
      (.simple (.call ⟨⟨⟨⟨"shop", by decide⟩, by decide⟩, [⟨"put", by decide⟩]⟩,
        ⟨[.word ⟨"n", by decide⟩], by decide⟩,
        [(⟨⟨"log", by decide⟩, by decide⟩, ⟨[], by decide⟩)]⟩) .nil)
    .nil))
  (.type ⟨[], .classType, ⟨⟨"Helper", by decide⟩, by decide⟩, none, []⟩
    ⟨[.word ⟨"int", by decide⟩, .word ⟨"hidden", by decide⟩, .mark ';'], by decide⟩
  (.block (.guarded ⟨⟨"switch", by decide⟩, by decide⟩ [] ⟨[.word ⟨"n", by decide⟩], by decide⟩)
    (.simple (.label (.constant ⟨⟨⟨"ONE", by decide⟩, by decide⟩, []⟩))
    (.simple (.declaration ⟨false, ⟨⟨⟨⟨⟨"String", by decide⟩, by decide⟩, []⟩, none⟩, 0⟩,
      ⟨⟨"s", by decide⟩, by decide⟩, none⟩)
    (.simple .leave .nil)))
  (.simple (.result ⟨[.word ⟨"t", by decide⟩, .mark '[', .word ⟨"n", by decide⟩, .mark ']'],
    by decide, by decide, by decide⟩) .nil))))

/-- A method with the body `counting`, and the brace after it. -/
def countingText : String :=
  "int m ( int k ) \x7b final int n = size ( k , 1 ) ; " ++
    "for ( int i = 0 ; i < n ; i++ ) \x7b if ( i < 2 ) \x7b Item [ ] n ; \x7d " ++
    "else \x7b shop . put ( n ) . log ( ) ; \x7d \x7d class Helper \x7b int hidden ; \x7d " ++
    "switch ( n ) \x7b case ONE : String s ; break ; \x7d return t [ n ] ; \x7d \x7d"

/-- The variables that `counting` declares. -/
def countingLocals : List Variable :=
  [⟨"n", some "int", true⟩, ⟨"n", some "Item[]", false⟩, ⟨"s", some "String", false⟩]

/-- The body of a class in which nothing has been read. -/
def insideClass : Progress := Progress.start.openType ⟨.classType, "A", none, []⟩ []

theorem read_eq_addMethod_counting : ∃ q after, insideClass.Keeps q ∧
    insideClass.KeepsMembers q ∧ Laid [.mark '\x7d'] after [] ∧
    insideClass.read true countingText.toList =
      (q.mapRecord fun record => record.addMethod
        ⟨.declare .packageAccess "m" (some "int") false false, [.declare "k" (some "int") false],
          countingLocals⟩).read true after := by
  have hscan : scan countingText.toList = some (⟨["int", "m", "(", "int", "k", ")"],
      .block (' ' :: spaced (counting.lexemes ++ .mark '\x7d' :: [.mark '\x7d'])) [' ', '\x7d']⟩,
        [' ', '\x7d']) := by decide +kernel
  have hmethod : Reading.ofTokens .typeBody ["int", "m", "(", "int", "k", ")"] =
      .declaring (.method ⟨.declare .packageAccess "m" (some "int") false false,
        [.declare "k" (some "int") false], []⟩) := by decide +kernel
  have hmarks : ∀ c, Lexeme.mark c ∈ counting.lexemes ++ .mark '\x7d' :: [.mark '\x7d'] →
      isMark c = true := by
    intro c hc
    rcases List.mem_append.1 hc with hc | hc
    · exact counting.balanced.marks c hc
    · have hbrace : c = '\x7d' := by simpa using hc
      rw [hbrace]
      decide
  have hlaid := (laid_spaced hmarks).blank (c := ' ') (by decide)
  obtain ⟨hafter, ⟨q, locals, hkeeps, hmembers, hread, _, hlocals⟩, hnames⟩ :=
    read_eq_addMethod (p := insideClass) rfl hscan hmethod counting hlaid
  obtain ⟨_, rfl⟩ := hlocals (by decide +kernel)
  have hdeclared : counting.keptVariables Name.isDeclared = countingLocals := by decide +kernel
  rw [hdeclared] at hread
  exact ⟨q, _, hkeeps, hmembers, hafter, hread⟩

/-- The body `if (c) { return t[i = 0]; } int y;`. -/
def indexed : Block :=
  .block (.guarded ⟨⟨"if", by decide⟩, by decide⟩ [] ⟨[.word ⟨"c", by decide⟩], by decide⟩)
    (.simple (.result ⟨[.word ⟨"t", by decide⟩, .mark '[', .word ⟨"i", by decide⟩, .mark '=',
      .word ⟨"0", by decide⟩, .mark ']'], by decide, by decide, by decide⟩) .nil)
  (.simple (.declaration ⟨false, ⟨⟨⟨⟨⟨"int", by decide⟩, by decide⟩, []⟩, none⟩, 0⟩,
    ⟨⟨"y", by decide⟩, by decide⟩, none⟩) .nil)

/-- The variables of the methods of a class with a method that has a
body. -/
def localsOfBody (body : String) : List (List (List Variable)) :=
  (outline true ("class A \x7b int m ( ) \x7b " ++ body ++ " \x7d \x7d")).map fun record =>
    record.methods.map Method.locals

/-- An equals sign in brackets of what is returned hides the variables after
it.  A number that begins with a dot, a method of a literal and a modifier of
a local type bring variables that nothing declares. -/
theorem not_kept_indexed :
    String.ofList (spaced indexed.lexemes) =
        "if ( c ) \x7b return t [ i = 0 ] ; \x7d int y ;" ∧
      indexed.keptVariables everyName = [⟨"y", some "int", false⟩] ∧
        localsOfBody "if ( c ) \x7b return t [ i = 0 ] ; \x7d int y ;" = [[[]]] ∧
          ∀ body ∈ ["return .5 / x;", "return \x22abc\x22 :: length;",
            "abstract class L \x7b int hidden; \x7d"], localsOfBody body ≠ [[[]]] := by
  decide +kernel

end Block

end JavaOutline
