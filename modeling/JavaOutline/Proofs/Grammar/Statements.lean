import JavaOutline.Proofs.Grammar.Balance
import JavaOutline.Proofs.Reading

/-!
# JavaOutline.Proofs.Grammar.Statements

What reading makes of the statements of the grammar, one at a time.

* `read_variables`, `read_locals`, `read_method` — members are added to the
  innermost record;
* `read_constants` — so are the constants of an enum;
* `openType_eq` — the record of a type before its members are read;
* `scan_clause` — packages and imports are statements of two tokens.
-/

namespace JavaOutline

open Text OpenStatement

/-! ## Records and fields -/

/-- A record with more fields. -/
def TypeRecord.addFields (members : List Member) (r : TypeRecord) : TypeRecord :=
  { r with fields := r.fields ++ members }

@[simp] theorem TypeRecord.addFields_nil (r : TypeRecord) : r.addFields [] = r := by
  simp [addFields]

@[simp] theorem TypeRecord.addFields_addFields (xs ys : List Member) (r : TypeRecord) :
    (r.addFields xs).addFields ys = r.addFields (xs ++ ys) := by
  simp [addFields]

@[simp] theorem Nesting.level_mapRecord {place : Type} (f : TypeRecord → TypeRecord)
    (n : Nesting place) : (n.mapRecord f).level = n.level := by
  obtain ⟨file, frames⟩ := n
  cases frames with
  | nil => rfl
  | cons frame outer =>
      obtain ⟨kind, scope, record, resume⟩ := frame
      cases kind <;> rfl

/-- A statement without tokens says nothing. -/
theorem Reading.ofTokens_nil (level : Level) : Reading.ofTokens level [] = nothing := by
  rw [ofTokens, ofTokensAfter]

namespace Progress

variable (withLocals : Bool) {p : Progress} {more : List Lexeme} {text rest : List Char}

/-! ## Between statements -/

/-- Blanks before a text are not read. -/
theorem read_blanks_append {run : List Char} (hrun : AllBlank run) (text : List Char) :
    p.read withLocals (run ++ text) = p.read withLocals text := by
  have hscan : scan (run ++ text) = scan text := by
    rw [scan, scan, skipGaps_blanks_append hrun]
  cases htext : scan text with
  | none => rw [read_of_scan_eq_none htext, read_of_scan_eq_none (hscan.trans htext)]
  | some found => rw [read_of_scan htext, read_of_scan (hscan.trans htext)]

/-- The brace that ends a body ends reading. -/
theorem read_closeBrace (hleave : p.nesting.leaveBlock? = none)
    (hlaid : Laid (.mark '\x7d' :: more) text rest) : p.read withLocals text = p := by
  obtain ⟨after, _, hscan⟩ := (Takes.nil (F := fun _ => True)).scan_closeBrace trivial (by simp) rfl
    hlaid
  rw [read_of_scan hscan, tokens_start, Reading.ofTokens_nil]
  simp [readAfter, Reading.nothing, declare, hleave]

/-- A semicolon alone says nothing. -/
theorem read_semicolon (hlaid : Laid (.mark ';' :: more) text rest) : ∃ after,
    Laid more after rest ∧ p.read withLocals text = p.read withLocals after := by
  obtain ⟨after, hafter, hscan⟩ := (Takes.nil (F := fun _ => True)).scan_semicolon trivial (by simp)
    rfl hlaid
  refine ⟨after, hafter, ?_⟩
  rw [read_of_scan hscan, tokens_start, Reading.ofTokens_nil]
  rfl

/-! ## Variables -/

theorem declare_fields (p : Progress) (fields : List Member) :
    p.declare (.fields fields) = p.mapRecord (TypeRecord.addFields fields) := by
  rw [declare]
  congr 1
  funext record
  exact foldl_addField fields record

/-- A statement that declares fields adds them. -/
theorem read_fields {tokens : List String} {fields : List Member} {after : List Char}
    (hscan : scan text = some (⟨tokens, .semicolon⟩, after))
    (hreading : Reading.ofTokens p.nesting.level tokens = .declaring (.fields fields)) :
    p.read withLocals text = (p.mapRecord (TypeRecord.addFields fields)).read withLocals after := by
  rw [read_of_scan hscan, hreading, ← declare_fields]
  rfl

/-- A declaration of variables adds those whose names are identifiers. -/
theorem read_variables (d : VariableDeclaration) (hlevel : p.nesting.level ≠ .file)
    (hinert : p.nesting.level = .methodBody → ∀ x ∈ d.modifiers.head?, isInert x.text = false)
    (hlaid : Laid (d.lexemes ++ more) text rest) : ∃ after, Laid more after rest ∧
      p.read withLocals text =
        (p.mapRecord (TypeRecord.addFields (d.members Name.isDeclared))).read withLocals after := by
  obtain ⟨after, hafter, hscan⟩ := scan_variables d hlaid
  exact ⟨after, hafter, read_fields withLocals hscan (d.reading hlevel hinert)⟩

/-- The body of a method adds its variables, up to the brace. -/
theorem read_locals (ds : List LocalDeclaration) {n : Nesting (List Char)} {scope : Scope}
    {record : TypeRecord} {resume : List Char} {records : List TypeRecord}
    (hlaid : Laid (localLexemes ds ++ .mark '\x7d' :: more) text rest) :
    (⟨n.push ⟨.methodBody 0, scope, record, resume⟩, records⟩ : Progress).read withLocals text =
      ⟨n.push ⟨.methodBody 0, scope,
        record.addFields (ds.flatMap fun d => d.members Name.isDeclared), resume⟩, records⟩ := by
  induction ds generalizing record text with
  | nil =>
      rw [read_closeBrace withLocals rfl hlaid]
      simp [TypeRecord.addFields]
  | cons d ds ih =>
      have hsplit : localLexemes (d :: ds) = d.lexemes ++ localLexemes ds := by simp [localLexemes]
      rw [hsplit, List.append_assoc] at hlaid
      obtain ⟨after, hafter, hread⟩ := read_variables withLocals
        (p := ⟨n.push ⟨.methodBody 0, scope, record, resume⟩, records⟩) d.toVariableDeclaration
        (by simp [Nesting.level, Nesting.push]) (fun _ => d.plainly) hlaid
      rw [hread]
      refine (ih hafter).trans ?_
      simp [TypeRecord.addFields]

/-! ## Methods -/

theorem fields_locals (imports : ImportTable) : (TypeRecord.locals imports).fields = [] := rfl

/-- A method is added with its parameters, and with the variables of its
body if they are wanted. -/
theorem read_method (m : MethodDeclaration) (hlevel : p.nesting.level = .typeBody)
    (hlaid : Laid (m.lexemes ++ more) text rest) : ∃ after, Laid more after rest ∧
      p.read withLocals text =
        (p.mapRecord fun record =>
          record.addMethod (m.method withLocals Name.isDeclared)).read withLocals after := by
  cases hbody : m.body with
  | none =>
      rw [MethodDeclaration.lexemes, hbody, List.append_assoc] at hlaid
      obtain ⟨after, hafter, hscan⟩ :=
        scan_method_semicolon m.header (fun htype => m.complete htype hbody) hlaid
      refine ⟨after, hafter, ?_⟩
      have hmethod : m.method withLocals Name.isDeclared = m.header.method [] := by
        simp [MethodDeclaration.method, hbody, localVariables]
      rw [read_of_scan hscan, hlevel, m.header.reading, hmethod]
      rfl
  | some ds =>
      rw [MethodDeclaration.lexemes, hbody, List.append_assoc, List.cons_append,
        List.append_assoc] at hlaid
      obtain ⟨body, hinside, hscan⟩ := scan_method_block m.header hlaid
      have hafter := (balanced_locals ds).passes.afterBracket_eq hinside
      refine ⟨_, hafter, ?_⟩
      rw [read_of_scan hscan, hlevel, m.header.reading]
      cases withLocals with
      | false =>
          have hmethod : m.method false Name.isDeclared = m.header.method [] := by
            simp [MethodDeclaration.method]
          simp [readAfter, Reading.declaring, declare, entersBlock, mapRecord, hlevel, hmethod]
      | true =>
          have hmethod : m.method true Name.isDeclared =
              { m.header.method [] with
                locals := localVariables Name.isDeclared ds } := by
            simp [MethodDeclaration.method, hbody, MethodHeader.method]
          simp only [readAfter, Reading.declaring, List.foldl_nil, openMethod, Frame.ofMethod]
          rw [read_locals _ ds hinside, closeMethod_of_push rfl, hmethod]
          congr 3
          funext record
          simp [TypeRecord.addFields, fields_locals, TypeRecord.fieldVariables, localVariables,
            List.map_flatMap]

end Progress

/-! ## Constants -/

namespace OpenStatement

/-- Names after a name go on with the token. -/
theorem read_moreNames (ns : List Name) {s : OpenStatement} {l : Lexeme} {more : List Lexeme}
    {text rest : List Char} (hparentheses : s.parentheses = 0) (hcurrent : s.current ≠ "")
    (hapart : Apart text)
    (hlaid : Laid (moreNames ns ++ l :: more) text rest) : ∃ after,
      Apart after ∧ Laid (l :: more) after rest ∧
        s.read text = (s.extend (namesAfter ns)).read after := by
  induction ns generalizing s text with
  | nil => exact ⟨text, hapart, hlaid, by simp [namesAfter, extend]⟩
  | cons n ns ih =>
      obtain ⟨mid, hfits, hmid, hname⟩ := read_comma_word n.toWord hparentheses hcurrent hlaid
      have hcurrent' := extend_ne_empty hcurrent ("," ++ n.text)
      obtain ⟨after, hafter, hlast, hread⟩ := ih (s := s.extend ("," ++ n.text)) hparentheses
        hcurrent' hfits hmid
      refine ⟨after, hafter, hlast, ?_⟩
      rw [hname, hread, extend_extend]
      rfl

end OpenStatement

/-- A list of names is one token. -/
theorem takes_names (F : Lexeme → Prop) (n : Name) (ns : List Name) {k : OpenStatement}
    (hparentheses : k.parentheses = 0) :
    Takes F k (.word n.toWord :: moreNames ns) (k.take (n.text ++ namesAfter ns)) := by
  intro s l more text rest hs _ hlaid
  have hk := hs.current_eq
  obtain ⟨mid, hfits, hmid, hword⟩ := hs.read_word hlaid
  have hcurrent : (k.extend n.text).current ≠ "" := by simp [extend, hk, n.ne_empty]
  obtain ⟨after, hapart, hafter, hread⟩ := read_moreNames ns (s := k.extend n.text) hparentheses
    hcurrent hfits hmid
  have hat : atAnnotation ((k.extend n.text).extend (namesAfter ns)) = false := by
    rw [atAnnotation_extend hcurrent, n.notAt_extend hk]
  have hstands := Stands.of_apart hat hapart
  rw [endToken_of_current_ne_empty (extend_ne_empty hcurrent _) hat] at hstands
  have htake : ({ (k.extend n.text).extend (namesAfter ns) with
      tokens := ((k.extend n.text).extend (namesAfter ns)).tokens ++
        [((k.extend n.text).extend (namesAfter ns)).current]
      current := "" } : OpenStatement) = k.take (n.text ++ namesAfter ns) := by
    simp [extend, take, hk]
  rw [htake] at hstands
  exact ⟨_, after, hstands, hafter, hword.trans hread⟩

/-- In the body of a type, a list of names alone declares constants. -/
theorem Reading.ofTokens_names (n : Name) (ns : List Name) (semicolon : Bool) :
    Reading.ofTokens .typeBody [n.text ++ namesAfter ns] =
      .declaring (.fields (Constants.fields ⟨n :: ns, semicolon⟩)) := by
  have hfree : reservedWords.contains (n.text ++ namesAfter ns) = false := by
    cases ns with
    | nil => simpa [namesAfter] using n.free
    | cons m ns =>
        have hcomma : ',' ∈ (n.text ++ namesAfter (m :: ns)).toList := by simp [namesAfter]
        exact not_reserved_of_mark hcomma (by decide)
  have hangle : (n.text ++ namesAfter ns).toList.head? ≠ some '<' := by
    have hfirst := n.not_head?_angle
    obtain ⟨c, cs, hw, _⟩ := n.exists_cons
    simpa [hw] using hfirst
  have hnonempty : ((n :: ns).map fun name => name.text).filter (· != "") =
      (n :: ns).map fun name => name.text := by
    rw [List.filter_eq_self]
    intro written hwritten
    obtain ⟨name, _, rfl⟩ := List.mem_map.1 hwritten
    simpa using name.ne_empty
  have hconstants : constants (n.text ++ namesAfter ns) =
      Constants.fields ⟨n :: ns, semicolon⟩ := by
    rw [constants, nameList_namesAfter, hnonempty, Constants.fields, List.map_map]
    apply List.map_congr_left
    intro name _
    simp [Member.declare, Word.declare_eq]
  rw [Reading.ofTokens, Reading.ofTokensAfter_member hfree hangle (by simp), Reading.member]
  simp [hconstants]

namespace Progress

variable (withLocals : Bool) {p : Progress} {more : List Lexeme} {text rest : List Char}

theorem mapRecord_addFields_nil (p : Progress) : p.mapRecord (TypeRecord.addFields []) = p := by
  obtain ⟨⟨file, frames⟩, records⟩ := p
  cases frames with
  | nil => rfl
  | cons frame outer => simp [mapRecord, Nesting.mapRecord, TypeRecord.addFields]

theorem leaveBlock?_of_typeBody {n : Nesting (List Char)} (h : n.level = .typeBody) :
    n.leaveBlock? = none := by
  obtain ⟨file, frames⟩ := n
  cases frames with
  | nil => rfl
  | cons frame outer =>
      obtain ⟨kind, scope, record, resume⟩ := frame
      cases kind with
      | typeBody => rfl
      | methodBody depth => cases h

/-- The constants at the beginning of a body are added; then the members
are read. -/
theorem read_constants (c : Constants) (inside : Members) (hlevel : p.nesting.level = .typeBody)
    (hlaid : Laid (c.lexemes inside.isNil ++ (inside.lexemes ++ .mark '\x7d' :: more)) text rest) :
    ∃ after, Laid (inside.lexemes ++ .mark '\x7d' :: more) after rest ∧
      p.read withLocals text =
        (p.mapRecord (TypeRecord.addFields c.fields)).read withLocals after := by
  obtain ⟨names, semicolon⟩ := c
  cases names with
  | nil =>
      have hnone : Constants.fields ⟨[], semicolon⟩ = [] := rfl
      rw [hnone, mapRecord_addFields_nil]
      cases semicolon with
      | false =>
          simp only [Constants.lexemes, Constants.nameLexemes, Constants.isEnded] at hlaid
          exact ⟨text, by simpa using hlaid, rfl⟩
      | true => exact read_semicolon withLocals hlaid
  | cons n ns =>
      have htakes := takes_names (fun _ => True) n ns (k := OpenStatement.start) rfl
      have hlexemes : Constants.lexemes ⟨n :: ns, semicolon⟩ inside.isNil =
          (.word n.toWord :: moreNames ns) ++
            if Constants.isEnded ⟨n :: ns, semicolon⟩ inside.isNil then [.mark ';'] else [] := rfl
      have hdeclare := p.declare_fields (Constants.fields ⟨n :: ns, semicolon⟩)
      rw [hlexemes, List.append_assoc] at hlaid
      cases hended : Constants.isEnded ⟨n :: ns, semicolon⟩ inside.isNil with
      | true =>
          rw [hended] at hlaid
          obtain ⟨after, hafter, hscan⟩ := htakes.scan_semicolon trivial (by simp) rfl hlaid
          refine ⟨after, hafter, ?_⟩
          rw [read_of_scan hscan, hlevel]
          simp [take, Reading.ofTokens_names n ns semicolon, readAfter, Reading.declaring, hdeclare]
      | false =>
          -- Without a semicolon the brace of the body ends the constants.
          have hnil : inside.lexemes = [] := by
            cases inside with
            | nil => rfl
            | _ => simp [Constants.isEnded, Members.isNil] at hended
          rw [hended, hnil] at hlaid
          rw [hnil]
          obtain ⟨mid, _, hbrace⟩ := hlaid.append
          obtain ⟨_, _, hscan⟩ := htakes.scan_closeBrace trivial (by simp) rfl hlaid
          refine ⟨mid, hbrace, ?_⟩
          have hstays : (p.mapRecord (TypeRecord.addFields
              (Constants.fields ⟨n :: ns, semicolon⟩))).nesting.leaveBlock? = none := by
            apply leaveBlock?_of_typeBody
            simpa [mapRecord] using hlevel
          rw [read_of_scan hscan, hlevel, read_closeBrace withLocals hstays hbrace]
          simp [take, Reading.ofTokens_names n ns semicolon, readAfter, Reading.declaring, hdeclare,
            hstays]

end Progress

/-! ## Types -/

/-- Where the next type of a body or of a file is declared. -/
def Nesting.place {place : Type} (n : Nesting place) : Place :=
  ⟨n.scope, n.enclosing?.map fun record => (record.name, record.imports)⟩

/-- The record of a type before its body is read. -/
def Place.startRecord (q : Place) (header : TypeHeader) : TypeRecord where
  packagePath := q.scope.path
  name := header.name
  kind := header.kind
  superName := header.superName
  outerName := q.outer.map Prod.fst
  interfaceNames := header.interfaceNames
  fields := []
  methods := []
  imports := q.tableInside header.name

/-- Entering a type whose name holds no dot. -/
theorem Progress.openType_eq (p : Progress) {header : TypeHeader} (hname : '.' ∉ header.name.toList)
    (resume : List Char) :
    p.openType header resume =
      ⟨(p.nesting.mapEnclosing fun outer =>
          outer.addImport header.name (p.nesting.place.fullName header.name)).push
        ⟨.typeBody, p.nesting.place.scopeInside header.name, p.nesting.place.startRecord header,
          resume⟩, p.records⟩ := by
  have hstart : TypeRecord.start (qualify p.nesting.scope.path header.name) header.kind =
      { TypeRecord.start "" header.kind with
        packagePath := p.nesting.scope.path
        name := header.name } := by
    simp [TypeRecord.start, splitFullName_qualify hname]
  rw [openType]
  simp only [Nesting.enclosing?_mapEnclosing, hstart]
  cases henclosing : p.nesting.enclosing? with
  | none =>
      simp [Place.startRecord, Nesting.place, henclosing, Place.tableInside, Place.scopeInside,
        Place.fullName, TypeRecord.addImports, TypeRecord.start]
  | some outer =>
      simp [Place.startRecord, Nesting.place, henclosing, Place.tableInside, Place.scopeInside,
        Place.fullName, TypeRecord.addImports, TypeRecord.start, TypeRecord.withOuter,
        TypeRecord.addImport]

/-! ## Clauses -/

theorem takes_qualifiedName (q : QualifiedName) {k : OpenStatement} (hangles : k.angles = 0) :
    Takes Lexeme.Follows k q.lexemes (k.take q.text) := by
  have htype := takes_type ⟨⟨q, none⟩, 0⟩ hangles
  have hlexemes : WrittenType.lexemes ⟨⟨q, none⟩, 0⟩ = q.lexemes := by
    simp [WrittenType.lexemes, ClassType.lexemes, ClassType.tail, argumentLexemes, arrayBrackets,
      QualifiedName.lexemes]
  rwa [WrittenType.text, hlexemes, ← QualifiedName.text] at htype

/-- A clause is one statement. -/
theorem scan_clause (keyword : Word) (q : QualifiedName) {more : List Lexeme}
    {text rest : List Char} (hlaid : Laid (clauseLexemes keyword q ++ more) text rest) :
    ∃ after, Laid more after rest ∧
      scan text = some (⟨[keyword.text, q.text], .semicolon⟩, after) := by
  have htakes := (takes_word start keyword).append
    (takes_qualifiedName q (k := start.take keyword.text) rfl) (fun _ _ hl => hl)
    (by intro y hy; cases hy; trivial)
  have hsplit : clauseLexemes keyword q ++ more =
      ([.word keyword] ++ q.lexemes) ++ .mark ';' :: more := by simp [clauseLexemes]
  rw [hsplit] at hlaid
  obtain ⟨after, hafter, hscan⟩ :=
    htakes.scan_semicolon (by simp [Lexeme.Follows]) (by simp) rfl hlaid
  exact ⟨after, hafter, by simpa [take] using hscan⟩

theorem Reading.ofTokens_package (level : Level) (path : String) :
    ofTokens level ["package", path] = ⟨[.package path], .nothing⟩ := by
  simp [ofTokens, ofTokensAfter, Access.ofKeyword?, after, nothing]

theorem Reading.ofTokens_import (level : Level) (full : String) :
    ofTokens level ["import", full] = ⟨[.importOf full], .nothing⟩ := by
  simp [ofTokens, ofTokensAfter, Access.ofKeyword?, after, nothing]

/-- An imported type is known under the last part of its name. -/
theorem importType_text (q : QualifiedName) (scope : Scope) :
    Progress.importType q.text scope = { scope with imports := q.importInto scope.imports } := by
  obtain ⟨first, more⟩ := q
  rw [Progress.importType, QualifiedName.importInto]
  cases hlast : more.getLast? with
  | none =>
      have hnil : more = [] := List.getLast?_eq_none_iff.1 hlast
      have hnone : cutLast '.' (QualifiedName.text ⟨first, more⟩).toList = none := by
        rw [cutLast_eq_none_iff]
        simpa [QualifiedName.text, QualifiedName.lexemes, hnil, dotted, Lexeme.chars]
          using first.not_mem (c := '.') (by decide)
      rw [hnone]
  | some w =>
      have hdotted : ∀ ws : List Word, dotted (ws ++ [w]) = dotted ws ++ [.mark '.', .word w] := by
        intro ws
        induction ws with
        | nil => rfl
        | cons v ws ih => simp [dotted, ih]
      obtain ⟨ws, rfl⟩ := List.getLast?_eq_some_iff.1 hlast
      have htext : (QualifiedName.text ⟨first, ws ++ [w]⟩).toList =
          (first.text.toList ++ (dotted ws).flatMap Lexeme.chars) ++ '.' :: w.text.toList := by
        simp [QualifiedName.text, QualifiedName.lexemes, hdotted, Lexeme.chars]
      have hstar : (w.text.toList = ['*']) ↔ w.text = "*" := by
        rw [← String.toList_inj]
        rfl
      rw [htext, cutLast_append (w.not_mem (by decide))]
      simp only [hstar, String.ofList_toList]
      split <;> rfl

end JavaOutline
