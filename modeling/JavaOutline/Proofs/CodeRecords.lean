import JavaOutline.Batch.Reader
import JavaOutline.Proofs.CodeTokens
import JavaOutline.Proofs.Registering
import JavaOutline.Proofs.Registration
import JavaOutline.Proofs.Visits

/-!
# JavaOutline.Proofs.CodeRecords

What the strings of records are spelt with.  Tokens hold no blanks, no quotes
and no slashes, and none of the characters that end a statement or begin an
initializer (`tokens_spelt_by_code`).  Declarations cut tokens into pieces, and
records keep the pieces or join them with dots, so neither do the strings of
records (`TypeRecord.Clean`).

* `Reading.ofTokens_clean` — what clean tokens declare is clean;
* `Progress.clean_move`, `Progress.clean_read` — reading a statement, and a
  text, keeps everything clean;
* `tokens_of_code` — the tokens and the records of any text.
-/

namespace JavaOutline

open Text

/-! ## Clean texts -/

/-- A text of characters that may stand in tokens. -/
def CleanText (text : String) : Prop := ∀ c ∈ text.toList, inToken c = true

namespace CleanText

variable {text other : String}

theorem ofList {cs : List Char} (h : ∀ c ∈ cs, inToken c = true) :
    CleanText (String.ofList cs) := by
  rwa [CleanText, String.toList_ofList]

/-- Characters taken from a clean text make a clean text. -/
theorem ofList_of_subset (h : CleanText text) {cs : List Char} (hcs : ∀ c ∈ cs, c ∈ text.toList) :
    CleanText (String.ofList cs) :=
  ofList fun c hc => h c (hcs c hc)

theorem append (h : CleanText text) (h' : CleanText other) : CleanText (text ++ other) := by
  intro c hc
  rw [String.toList_append, List.mem_append] at hc
  exact hc.elim (h c) (h' c)

theorem qualify (h : CleanText text) (h' : CleanText other) : CleanText (qualify text other) := by
  rw [JavaOutline.qualify]
  split
  · exact h'
  · have hdot : CleanText "." := by simp [CleanText]; decide
    exact (h.append hdot).append h'

theorem splitFullName (h : CleanText text) :
    CleanText (splitFullName text).1 ∧ CleanText (splitFullName text).2 := by
  rw [JavaOutline.splitFullName]
  split
  · next path name hcut =>
      obtain ⟨heq, -⟩ := eq_of_cutLast hcut
      constructor
      · exact h.ofList_of_subset fun c hc => by simp [heq, hc]
      · exact h.ofList_of_subset fun c hc => by simp [heq, hc]
  · exact ⟨by simp [CleanText], h⟩

end CleanText

/-! ## Clean records -/

structure Variable.Clean (v : Variable) : Prop where
  name : CleanText v.name
  type : ∀ type ∈ v.type, CleanText type

structure Method.Clean (m : Method) : Prop where
  head : m.toVariable.Clean
  parameters : ∀ v ∈ m.parameters, v.Clean
  locals : ∀ v ∈ m.locals, v.Clean

/-- The simple names of a table and the full names they mean are clean. -/
def ImportTable.Clean (table : ImportTable) : Prop :=
  ∀ entry ∈ table.entries, CleanText entry.1 ∧ CleanText entry.2

/-- All strings of a record are clean. -/
structure TypeRecord.Clean (t : TypeRecord) : Prop where
  packagePath : CleanText t.packagePath
  name : CleanText t.name
  superName : ∀ written ∈ t.superName, CleanText written
  outerName : ∀ name ∈ t.outerName, CleanText name
  interfaceNames : ∀ written ∈ t.interfaceNames, CleanText written
  fields : ∀ field ∈ t.fields, field.toVariable.Clean
  methods : ∀ method ∈ t.methods, method.Clean
  imports : t.imports.Clean

/-- Brackets of a name go to the type, and both stay clean. -/
theorem Variable.declare_clean {written : String} {type : Option String} (hname : CleanText written)
    (htype : ∀ t ∈ type, CleanText t) (isFinal : Bool) :
    (Variable.declare written type isFinal).Clean := by
  have hcut := dropTrailing_append_takeTrailing isArrayBracket written.toList
  refine ⟨hname.ofList_of_subset fun c hc => ?_, fun full hfull => ?_⟩
  · rw [← hcut]
    exact List.mem_append_left _ hc
  · obtain ⟨type, rfl, rfl⟩ := Option.map_eq_some_iff.1 hfull
    refine (htype type rfl).append (hname.ofList_of_subset fun c hc => ?_)
    rw [← hcut]
    exact List.mem_append_right _ hc

namespace ImportTable.Clean

theorem empty : ImportTable.empty.Clean := fun _ h => by cases h

theorem insert {table : ImportTable} (h : table.Clean) {short full : String}
    (hshort : CleanText short) (hfull : CleanText full) :
    (table.insert short full).Clean := by
  intro entry hentry
  rcases Entries.mem_put hentry with rfl | hentry
  · exact ⟨hshort, hfull⟩
  · exact h entry hentry

theorem overlay {table other : ImportTable} (h : table.Clean) (h' : other.Clean) :
    (table.overlay other).Clean := by
  have hinsert : ∀ (entries : List (String × String)) (table : ImportTable), table.Clean →
      (∀ entry ∈ entries, CleanText entry.1 ∧ CleanText entry.2) →
      (entries.foldl (fun t e => t.insert e.1 e.2) table).Clean := by
    intro entries
    induction entries with
    | nil => exact fun _ htable _ => htable
    | cons entry entries ih =>
        intro table htable hentries
        obtain ⟨hentry, hrest⟩ := List.forall_mem_cons.1 hentries
        exact ih _ (htable.insert hentry.1 hentry.2) hrest
  exact hinsert other.entries table h h'

end ImportTable.Clean

namespace TypeRecord.Clean

variable {t : TypeRecord}

theorem start {full : String} (h : CleanText full) (kind : TypeKind) :
    (TypeRecord.start full kind).Clean where
  packagePath := h.splitFullName.1
  name := h.splitFullName.2
  superName := fun _ h => by cases h
  outerName := fun _ h => by cases h
  interfaceNames := fun _ h => by cases h
  fields := fun _ h => by cases h
  methods := fun _ h => by cases h
  imports := .empty

theorem addImport (h : t.Clean) {short full : String} (hshort : CleanText short)
    (hfull : CleanText full) : (t.addImport short full).Clean :=
  { h with imports := h.imports.insert hshort hfull }

theorem addImports (h : t.Clean) {table : ImportTable} (htable : table.Clean) :
    (t.addImports table).Clean :=
  { h with imports := h.imports.overlay htable }

theorem locals {imports : ImportTable} (h : imports.Clean) : (TypeRecord.locals imports).Clean :=
  (start (by simp [CleanText]; decide) .classType).addImports h

theorem withOuter (h : t.Clean) {name : String} (hname : CleanText name) :
    (t.withOuter name).Clean :=
  { h with outerName := by rintro _ ⟨⟩; exact hname }

theorem addFields (h : t.Clean) {members : List Member}
    (hmembers : ∀ m ∈ members, m.toVariable.Clean) :
    (members.foldl TypeRecord.addField t).Clean := by
  rw [foldl_addField]
  exact { h with fields := List.forall_mem_append.2 ⟨h.fields, hmembers⟩ }

theorem addMethod (h : t.Clean) {method : Method} (hmethod : method.Clean) :
    (t.addMethod method).Clean :=
  { h with methods := List.forall_mem_append.2 ⟨h.methods, by simpa using hmethod⟩ }

/-- The variables that were found in the body of a method are clean. -/
theorem fieldVariables (h : t.Clean) : ∀ v ∈ t.fieldVariables, v.Clean := by
  intro v hv
  obtain ⟨field, hfield, rfl⟩ := List.mem_map.1 hv
  exact h.fields field hfield

end TypeRecord.Clean

/-! ## Clean declarations -/

structure TypeHeader.Clean (h : TypeHeader) : Prop where
  name : CleanText h.name
  superName : ∀ written ∈ h.superName, CleanText written
  interfaceNames : ∀ written ∈ h.interfaceNames, CleanText written

def Clause.Clean : Clause → Prop
  | .package path => CleanText path
  | .importOf full => CleanText full

def Declaration.Clean : Declaration → Prop
  | .nothing => True
  | .type header => header.Clean
  | .fields members => ∀ m ∈ members, m.toVariable.Clean
  | .method m => m.Clean

structure Reading.Clean (r : Reading) : Prop where
  clauses : ∀ clause ∈ r.clauses, clause.Clean
  declaration : r.declaration.Clean

section

variable {tokens : List String}

/-- A written list is cut into clean types. -/
theorem typeList_clean {written : String} (h : CleanText written) :
    ∀ type ∈ typeList written, CleanText type := by
  have hpieces : ∀ (depth : Int) (text : List Char) (piece : List Char),
      piece ∈ outerPieces depth text → piece ⊆ text := by
    intro depth text
    induction text generalizing depth with
    | nil => simp [outerPieces]
    | cons d text ih =>
        intro piece hpiece
        rw [outerPieces] at hpiece
        split at hpiece
        · rcases List.mem_cons.1 hpiece with rfl | hin
          · exact List.nil_subset _
          · exact List.subset_cons_of_subset d (ih depth piece hin)
        · split at hpiece
          · rw [List.mem_singleton] at hpiece
            exact hpiece ▸ List.cons_subset_cons d (List.nil_subset _)
          · next first more hcut =>
              rcases List.mem_cons.1 hpiece with rfl | hin
              · exact List.cons_subset_cons d (ih _ first (hcut ▸ List.mem_cons_self))
              · exact List.subset_cons_of_subset d
                  (ih _ piece (hcut ▸ List.mem_cons_of_mem first hin))
  intro type htype
  obtain ⟨piece, hpiece, rfl⟩ := List.mem_map.1 htype
  exact h.ofList_of_subset (hpieces 0 written.toList piece (List.mem_filter.1 hpiece).1)

theorem typesAfter_clean (h : ∀ token ∈ tokens, CleanText token) (keyword : String) :
    (∀ type ∈ (typesAfter keyword tokens).1, CleanText type) ∧
      ∀ token ∈ (typesAfter keyword tokens).2, CleanText token := by
  fun_cases typesAfter keyword tokens with
  | case1 written rest =>
      simp only [List.forall_mem_cons] at h
      exact ⟨typeList_clean h.2.1, h.2.2⟩
  | case2 => exact ⟨by simp, h⟩
  | case3 => exact ⟨by simp, h⟩

theorem afterTypeParameters_clean (h : ∀ token ∈ tokens, CleanText token) (opened : Int) :
    ∀ token ∈ afterTypeParameters opened tokens, CleanText token := by
  induction tokens generalizing opened with
  | nil => exact h
  | cons token rest ih =>
      rw [afterTypeParameters]
      split
      · exact ih (List.forall_mem_cons.1 h).2 _
      · exact h

theorem TypeHeader.ofTokens?_clean (h : ∀ token ∈ tokens, CleanText token)
    {kind : TypeKind} {header : TypeHeader} (hheader : ofTokens? kind tokens = some header) :
    header.Clean := by
  cases tokens with
  | nil => cases hheader
  | cons declared rest =>
      obtain ⟨hdeclared, hrest⟩ := List.forall_mem_cons.1 h
      obtain ⟨hextended, hafter⟩ :=
        typesAfter_clean (afterTypeParameters_clean hrest (unclosedAngles declared)) "extends"
      obtain ⟨himplemented, -⟩ := typesAfter_clean hafter "implements"
      simp only [ofTokens?] at hheader
      split at hheader
      · cases hheader
      · cases hheader
        refine ⟨hdeclared.ofList_of_subset fun c hc => (List.takeWhile_sublist _).subset hc,
          fun written hwritten => hextended written (List.mem_of_mem_head? hwritten),
          List.forall_mem_append.2 ⟨fun written hwritten => ?_, himplemented⟩⟩
        exact hextended written (List.mem_of_mem_tail hwritten)

/-- A type with its dots and the name behind them make up a token. -/
theorem append_of_cutAfterDots {text type name : List Char}
    (h : cutAfterDots text = some (type, name)) : text = type ++ name := by
  fun_induction cutAfterDots text generalizing type with
  | case1 => cases h
  | case2 => cases h; rfl
  | case3 c rest _ ih =>
      obtain ⟨⟨type, name⟩, hcut, heq⟩ := Option.map_eq_some_iff.1 h
      cases heq
      rw [ih hcut, List.cons_append]

theorem parameters_clean (h : ∀ token ∈ tokens, CleanText token) (isFinal : Bool) :
    ∀ v ∈ parameters isFinal tokens, v.Clean := by
  fun_induction parameters isFinal tokens with
  | case1 => exact by simp
  | case2 => exact by simp
  | case3 _ _ _ _ _ ih => exact ih (List.forall_mem_cons.1 h).2
  | case4 isFinal token rest _ _ type name hcut ih =>
      obtain ⟨htoken, hrest⟩ := List.forall_mem_cons.1 h
      have heq := append_of_cutAfterDots hcut
      refine List.forall_mem_cons.2 ⟨Variable.declare_clean ?_ ?_ isFinal, ih hrest⟩
      · exact htoken.ofList_of_subset fun c hc => by simp [heq, hc]
      · rintro _ ⟨⟩
        exact htoken.ofList_of_subset fun c hc => by simp [heq, hc]
  | case5 => exact by simp
  | case6 isFinal type _ _ _ name rest ih =>
      simp only [List.forall_mem_cons] at h
      refine List.forall_mem_cons.2 ⟨Variable.declare_clean h.2.1 ?_ isFinal, ih h.2.2⟩
      rintro _ ⟨⟩
      exact h.1

theorem nameList_clean {written : String} (h : CleanText written) :
    ∀ name ∈ nameList written, CleanText name := by
  intro name hname
  obtain ⟨piece, hpiece, rfl⟩ := List.mem_map.1 hname
  exact h.ofList_of_subset fun c hc => mem_of_mem_pieces hpiece hc

theorem constants_clean {written : String} (h : CleanText written) :
    ∀ m ∈ constants written, m.toVariable.Clean := by
  intro m hm
  obtain ⟨name, hname, rfl⟩ := List.mem_map.1 hm
  exact Variable.declare_clean (nameList_clean h name (List.mem_filter.1 hname).1)
    (by simp) false

theorem Modifiers.declare_clean (m : Modifiers) (h : ∀ token ∈ tokens, CleanText token) :
    (m.declare tokens).Clean := by
  unfold Modifiers.declare
  split
  · next name rest =>
      simp only [List.forall_mem_cons] at h
      exact ⟨Variable.declare_clean h.1 (by simp) _, parameters_clean h.2.2 false, by simp⟩
  · next type name rest _ =>
      simp only [List.forall_mem_cons] at h
      refine ⟨Variable.declare_clean h.2.1 ?_ _, parameters_clean h.2.2.2 false, by simp⟩
      rintro _ ⟨⟩
      exact h.1
  · next type names rest _ _ =>
      simp only [List.forall_mem_cons] at h
      intro member hmember
      obtain ⟨name, hname, rfl⟩ := List.mem_map.1 hmember
      refine Variable.declare_clean
        (nameList_clean h.2.1 name (List.mem_filter.1 hname).1) ?_ _
      rintro _ ⟨⟩
      exact h.1
  · trivial

namespace Reading

theorem member_clean (level : Level) (m : Modifiers) (alone : Bool)
    (h : ∀ token ∈ tokens, CleanText token) : (member level m alone tokens).Clean := by
  have hdeclared := m.declare_clean h
  rw [member.eq_def]
  split
  · next token =>
      split
      · exact constants_clean (h token List.mem_cons_self)
      · trivial
  · split
    · next hmethod =>
        rw [hmethod] at hdeclared
        split
        · trivial
        · exact hdeclared
    · exact hdeclared

theorem declaring_clean {declaration : Declaration} (h : declaration.Clean) :
    (declaring declaration).Clean :=
  ⟨List.forall_mem_nil _, h⟩

theorem nothing_clean : nothing.Clean := declaring_clean trivial

/-- A clause is put in front if the next token gives one. -/
theorem after_clean {r : Reading} (h : r.Clean) (clause : String → Clause)
    (hclause : ∀ token ∈ tokens, (clause token).Clean) :
    (r.after (tokens.head?.map clause).toList).Clean := by
  refine ⟨List.forall_mem_append.2 ⟨fun c hc => ?_, h.clauses⟩, h.declaration⟩
  obtain ⟨token, htoken, rfl⟩ := Option.map_eq_some_iff.1 (Option.mem_toList.1 hc)
  exact hclause token (List.mem_of_mem_head? htoken)

/-- What clean tokens say is clean. -/
theorem ofTokensAfter_clean (level : Level) (m : Modifiers) (first : Bool)
    (h : ∀ token ∈ tokens, CleanText token) :
    (ofTokensAfter level m first tokens).Clean := by
  fun_induction ofTokensAfter level m first tokens with
  | case1 => exact nothing_clean
  | case2 _ _ _ _ _ _ ih => exact ih (List.forall_mem_cons.1 h).2
  | case3 _ _ _ _ ih => exact ih (List.forall_mem_cons.1 h).2
  | case4 _ _ _ _ _ ih => exact ih (List.forall_mem_cons.1 h).2
  | case5 m first rest _ _ _ ih =>
      have hrest := (List.forall_mem_cons.1 h).2
      exact after_clean (ih fun token htoken => hrest token (List.mem_of_mem_tail htoken)) _ hrest
  | case6 m first rest _ _ _ _ ih =>
      have hrest := (List.forall_mem_cons.1 h).2
      exact after_clean (ih fun token htoken => hrest token (List.mem_of_mem_tail htoken)) _ hrest
  | case7 m first token rest _ _ _ _ _ kind _ =>
      have hrest := (List.forall_mem_cons.1 h).2
      refine declaring_clean ?_
      cases hheader : TypeHeader.ofTokens? kind rest with
      | none => trivial
      | some header => exact TypeHeader.ofTokens?_clean hrest hheader
  | case8 => exact nothing_clean
  | case9 => rename_i ih; exact ih (List.forall_mem_cons.1 h).2
  | case10 =>
      rename_i ih
      exact ih (afterTypeParameters_clean (List.forall_mem_cons.1 h).2 _)
  | case11 => rename_i ih; exact ih (List.forall_mem_cons.1 h).2
  | case12 => exact declaring_clean (member_clean _ _ _ h)

theorem ofTokens_clean (level : Level) (h : ∀ token ∈ tokens, CleanText token) :
    (ofTokens level tokens).Clean :=
  ofTokensAfter_clean level .absent true h

end Reading

end

/-! ## Clean nestings -/

structure Scope.Clean (scope : Scope) : Prop where
  path : CleanText scope.path
  imports : scope.imports.Clean

structure Frame.Clean {place : Type} (frame : Frame place) : Prop where
  scope : frame.scope.Clean
  record : frame.record.Clean

structure Nesting.Clean {place : Type} (n : Nesting place) : Prop where
  file : n.file.Clean
  frames : ∀ frame ∈ n.frames, frame.Clean

theorem Scope.empty_clean : Scope.empty.Clean := ⟨by simp [CleanText, empty], .empty⟩

namespace Nesting.Clean

variable {place : Type} {n m : Nesting place}

theorem empty : (Nesting.empty : Nesting place).Clean := ⟨Scope.empty_clean, List.forall_mem_nil _⟩

theorem push (h : n.Clean) {frame : Frame place} (hframe : frame.Clean) : (n.push frame).Clean :=
  ⟨h.file, List.forall_mem_cons.2 ⟨hframe, h.frames⟩⟩

theorem of_pop? (h : n.Clean) {frame : Frame place} (hpop : n.pop? = some (frame, m)) :
    frame.Clean ∧ m.Clean := by
  obtain ⟨file, frames⟩ := n
  cases frames with
  | nil => cases hpop
  | cons _ outer =>
      cases hpop
      obtain ⟨hframe, houter⟩ := List.forall_mem_cons.1 h.frames
      exact ⟨hframe, h.file, houter⟩

theorem scope (h : n.Clean) : n.scope.Clean := by
  obtain ⟨file, frames⟩ := n
  cases frames with
  | nil => exact h.file
  | cons frame outer => exact (h.frames frame List.mem_cons_self).scope

theorem record? (h : n.Clean) {t : TypeRecord} (ht : n.record? = some t) : t.Clean := by
  obtain ⟨frame, hframe, rfl⟩ := Option.map_eq_some_iff.1 ht
  exact (h.frames frame (List.mem_of_mem_head? hframe)).record

theorem enclosing? (h : n.Clean) {t : TypeRecord} (ht : n.enclosing? = some t) : t.Clean := by
  obtain ⟨file, frames⟩ := n
  have hframes : ∀ frame ∈ frames, frame.Clean := h.frames
  change enclosingOf frames = some t at ht
  clear h
  fun_induction enclosingOf frames with
  | case1 => cases ht
  | case2 => cases ht; exact (hframes _ List.mem_cons_self).record
  | case3 _ _ _ _ _ ih => exact ih (List.forall_mem_cons.1 hframes).2 ht

theorem mapScope (h : n.Clean) {f : Scope → Scope} (hf : ∀ scope, scope.Clean → (f scope).Clean) :
    (n.mapScope f).Clean := by
  obtain ⟨file, frames⟩ := n
  cases frames with
  | nil => exact ⟨hf file h.file, h.frames⟩
  | cons frame outer =>
      obtain ⟨hframe, houter⟩ := List.forall_mem_cons.1 h.frames
      exact ⟨h.file, List.forall_mem_cons.2 ⟨{ hframe with scope := hf _ hframe.scope }, houter⟩⟩

theorem mapRecord (h : n.Clean) {f : TypeRecord → TypeRecord}
    (hf : ∀ t, t.Clean → (f t).Clean) : (n.mapRecord f).Clean := by
  obtain ⟨file, frames⟩ := n
  cases frames with
  | nil => exact h
  | cons frame outer =>
      obtain ⟨hframe, houter⟩ := List.forall_mem_cons.1 h.frames
      exact ⟨h.file, List.forall_mem_cons.2 ⟨{ hframe with record := hf _ hframe.record }, houter⟩⟩

theorem mapEnclosing (h : n.Clean) {f : TypeRecord → TypeRecord}
    (hf : ∀ t, t.Clean → (f t).Clean) : (n.mapEnclosing f).Clean := by
  obtain ⟨file, frames⟩ := n
  refine ⟨h.file, ?_⟩
  have hframes : ∀ frame ∈ frames, frame.Clean := h.frames
  change ∀ frame ∈ mapEnclosingOf f frames, frame.Clean
  clear h
  fun_induction mapEnclosingOf f frames with
  | case1 => exact hframes
  | case2 =>
      obtain ⟨hframe, houter⟩ := List.forall_mem_cons.1 hframes
      exact List.forall_mem_cons.2 ⟨{ hframe with record := hf _ hframe.record }, houter⟩
  | case3 _ _ _ _ _ ih =>
      obtain ⟨hframe, houter⟩ := List.forall_mem_cons.1 hframes
      exact List.forall_mem_cons.2 ⟨{ hframe with }, ih houter⟩

theorem enterBlock (h : n.Clean) : n.enterBlock.Clean := by
  unfold Nesting.enterBlock
  split
  · next heq =>
      have hframes := h.frames
      rw [heq] at hframes
      obtain ⟨hframe, houter⟩ := List.forall_mem_cons.1 hframes
      exact ⟨h.file, List.forall_mem_cons.2 ⟨{ hframe with }, houter⟩⟩
  · exact h

theorem leaveBlock? (h : n.Clean) (hleave : n.leaveBlock? = some m) : m.Clean := by
  unfold Nesting.leaveBlock? at hleave
  split at hleave
  · next heq =>
      cases hleave
      have hframes := h.frames
      rw [heq] at hframes
      obtain ⟨hframe, houter⟩ := List.forall_mem_cons.1 hframes
      exact ⟨h.file, List.forall_mem_cons.2 ⟨{ hframe with }, houter⟩⟩
  · cases hleave

end Nesting.Clean

/-! ## Reading -/

namespace Progress

/-- Everything that has been read is clean. -/
structure Clean (p : Progress) : Prop where
  nesting : p.nesting.Clean
  records : ∀ t ∈ p.records, t.Clean

/-- What has a body is clean. -/
def Owner.Clean : Owner → Prop
  | .type header => header.Clean
  | .method m => m.Clean

variable {withLocals : Bool} {p q : Progress} {statement : Statement (List Char)}
  {rest body after : List Char} {owner : Owner}

theorem importType_clean {full : String} (h : CleanText full) {scope : Scope}
    (hscope : scope.Clean) : (importType full scope).Clean := by
  rw [importType]
  split
  · exact hscope
  · next before short hcut =>
      split
      · exact hscope
      · obtain ⟨heq, -⟩ := Text.eq_of_cutLast hcut
        have hshort : CleanText (String.ofList short) :=
          h.ofList_of_subset fun c hc => by simp [heq, hc]
        exact { hscope with imports := hscope.imports.insert hshort h }

theorem apply_clean (h : p.Clean) {clause : Clause} (hclause : clause.Clean) :
    (p.apply clause).Clean := by
  cases clause with
  | package path =>
      have hpath : ∀ scope : Scope, scope.Clean → Scope.Clean { scope with path } :=
        fun _ hscope => ⟨hclause, hscope.imports⟩
      exact { h with nesting := h.nesting.mapScope hpath }
  | importOf full =>
      exact { h with nesting := h.nesting.mapScope fun _ => importType_clean hclause }

theorem declare_clean (h : p.Clean) {declaration : Declaration} (hclean : declaration.Clean) :
    (p.declare declaration).Clean := by
  cases declaration with
  | nothing => exact h
  | type header => exact h
  | fields members =>
      exact { h with nesting := h.nesting.mapRecord fun _ ht => ht.addFields hclean }
  | method m => exact { h with nesting := h.nesting.mapRecord fun _ ht => ht.addMethod hclean }

/-- A type is placed under a clean name. -/
theorem openType_clean (h : p.Clean) {header : TypeHeader} (hheader : header.Clean)
    (resume : List Char) : (p.openType header resume).Clean := by
  have hpath := h.nesting.scope.path.qualify hheader.name
  have himports := h.nesting.scope.imports.insert hheader.name hpath
  have hnesting := h.nesting.mapEnclosing fun _ ht => ht.addImport hheader.name hpath
  have hown := (TypeRecord.Clean.start hpath header.kind).addImports himports
  refine { h with nesting := hnesting.push ⟨⟨hpath, himports⟩, ?_⟩ }
  have hheaded : ∀ t : TypeRecord, t.Clean → TypeRecord.Clean { t with
      superName := header.superName, interfaceNames := header.interfaceNames } := fun _ ht =>
    { ht with superName := hheader.superName, interfaceNames := hheader.interfaceNames }
  refine hheaded _ ?_
  split
  · exact hown
  · next outer houter =>
      have hclean := hnesting.enclosing? houter
      exact (hown.withOuter hclean.name).addImports hclean.imports

theorem openBody_clean (h : p.Clean) (howner : owner.Clean) (resume : List Char) :
    (p.openBody resume owner).Clean := by
  cases owner with
  | type header => exact openType_clean h howner resume
  | method m =>
      refine { h with nesting := h.nesting.push ⟨h.nesting.scope, .locals ?_⟩ }
      cases hrecord : p.nesting.record? with
      | none => exact h.nesting.scope.imports
      | some t => exact (h.nesting.record? hrecord).imports

/-- The record of a body that is left is kept, or its variables are. -/
theorem closeBody_clean (h : p.Clean) (howner : owner.Clean) : (p.closeBody owner).Clean := by
  cases owner with
  | type header =>
      simp only [closeBody, closeType]
      split
      · exact h
      · next hpop =>
          obtain ⟨hframe, houter⟩ := h.nesting.of_pop? hpop
          exact ⟨houter, List.forall_mem_append.2 ⟨h.records, by simpa using hframe.record⟩⟩
  | method m =>
      simp only [closeBody, closeMethod]
      split
      · exact h
      · next frame outer hpop =>
          obtain ⟨hframe, houter⟩ := h.nesting.of_pop? hpop
          have hm : Method.Clean m := howner
          have hwhole : Method.Clean { m with locals := frame.record.fieldVariables } :=
            ⟨hm.head, hm.parameters, hframe.record.fieldVariables⟩
          exact ⟨houter.mapRecord fun _ ht => ht.addMethod hwhole, h.records⟩

/-- The step: a statement of clean tokens keeps everything clean. -/
theorem clean_move (h : p.Clean) (htokens : ∀ token ∈ statement.tokens, CleanText token) :
    (p.move withLocals statement rest).progress.Clean := by
  have hreading := Reading.ofTokens_clean p.nesting.level htokens
  refine move_invariant (I := Clean) (fun q clause hclause hq => ?_)
    (fun q declaration hdeclaration hq => ?_) (fun q hq => ?_) (fun q n hleave hq => ?_) h
  · exact apply_clean hq (hreading.clauses clause hclause)
  · exact declare_clean hq (hdeclaration ▸ hreading.declaration)
  · exact { hq with nesting := hq.nesting.enterBlock }
  · exact { hq with nesting := hq.nesting.leaveBlock? hleave }

theorem clean_owner (htokens : ∀ token ∈ statement.tokens, CleanText token)
    (h : p.move withLocals statement rest = .enter q owner body after) : owner.Clean := by
  have hdeclaration := (Reading.ofTokens_clean p.nesting.level htokens).declaration
  have howner := ownerOf?_of_enter h
  cases hcases : (Reading.ofTokens p.nesting.level statement.tokens).declaration with
  | nothing => rw [hcases] at howner; cases howner
  | fields members => rw [hcases] at howner; cases howner
  | type header =>
      rw [hcases] at howner hdeclaration
      cases howner
      exact hdeclaration
  | method m =>
      rw [hcases] at howner hdeclaration
      cases withLocals with
      | false => cases howner
      | true => cases howner; exact hdeclaration

/-- Reading a text keeps everything clean. -/
theorem clean_read (withLocals : Bool) (p : Progress) (text : List Char) (h : p.Clean) :
    (p.read withLocals text).Clean := by
  have htokens : ∀ {text rest : List Char} {statement : Statement (List Char)},
      scan text = some (statement, rest) → ∀ token ∈ statement.tokens, CleanText token := by
    intro text rest statement hscan token htoken c hc
    obtain ⟨cs, -, hspelt⟩ := scan_spelt hscan
    exact hspelt.inToken_of_mem htoken hc
  induction p, text using read_induction withLocals with
  | cutOff p text hscan => rwa [read_of_scan_eq_none hscan]
  | leave p text statement rest q hscan hmove =>
      have hstep : (p.move withLocals statement rest).progress.Clean :=
        clean_move h (htokens hscan)
      rw [hmove] at hstep
      rw [read_of_scan_of_move hscan, hmove]
      exact hstep
  | goOn p text statement rest q next hscan hmove ih =>
      have hstep : (p.move withLocals statement rest).progress.Clean :=
        clean_move h (htokens hscan)
      rw [hmove] at hstep
      rw [read_of_scan_of_move hscan, hmove]
      exact ih hstep
  | enter p text statement rest q owner body hscan hmove ihbody ihrest =>
      have hstep : (p.move withLocals statement rest).progress.Clean :=
        clean_move h (htokens hscan)
      rw [hmove] at hstep
      have howner := clean_owner (htokens hscan) hmove
      rw [read_of_scan_of_move hscan, hmove]
      exact ihrest (closeBody_clean (ihbody (openBody_clean hstep howner rest)) howner)

theorem clean_start : start.Clean := ⟨.empty, List.forall_mem_nil _⟩

end Progress

/-- All records of an outline are clean. -/
theorem clean_of_mem_outline {withLocals : Bool} {text : String} {t : TypeRecord}
    (h : t ∈ outline withLocals text) : t.Clean :=
  (Progress.clean_read withLocals .start text.toList Progress.clean_start).records t h

/-! ## Any text -/

/-- The tokens of the statement at any position are spelt, in order, by the
code characters between the position and the one after the statement; none is
empty, and none holds a blank, a quote, a slash, or what ends a statement or
begins an initializer.  So no string of a record that is registered for the
text holds one of these. -/
theorem tokens_of_code (withLocals : Bool) (text : String) :
    (∀ (cursor next : Nat) (statement : Statement Nat),
      statementAt text.toList cursor = some (statement, next) →
        (statement.tokens.flatMap String.toList).Sublist (codeBetween text.toList cursor next) ∧
        ∀ token ∈ statement.tokens, token ≠ "" ∧ CleanText token) ∧
      ∀ t ∈ (Registry.empty.readText withLocals text).1.toList, t.Clean := by
  constructor
  · intro cursor next statement h
    have hspelt := tokens_spelt_by_code h
    refine ⟨?_, fun token htoken => ⟨?_, fun c hc => hspelt.inToken_of_mem htoken hc⟩⟩
    · simpa using hspelt.inOrder.trans List.filter_sublist
    · rintro rfl
      exact hspelt.nonempty htoken
  · intro t ht
    simp only [Registry.readText_eq, Registry.registry_registerAll, Registry.toList_foldl_append,
      Registry.toList_empty, List.nil_append] at ht
    exact clean_of_mem_outline ((Registry.fresh_sublist _ _).subset ht)

/-- A literal and a comment between the names of two fields. -/
theorem tokens_of_code_between_fields :
    let text := "class A \x7b int a = 'x' /* = */, b; \x7d"
    statementAt text.toList 9 = some (⟨["int", "a,b"], .semicolon⟩, 33) ∧
      codeBetween text.toList 9 33 = " int a =  , b;".toList ∧
      "inta,b".toList.Sublist (codeBetween text.toList 9 33) ∧
      (∀ token ∈ ["int", "a,b"], token ≠ "" ∧ CleanText token) ∧
      (Registry.empty.readText true text).2 = ["A"] ∧
      ∀ t ∈ (Registry.empty.readText true text).1.toList, t.Clean := by
  intro text
  have hstatement : statementAt text.toList 9 = some (⟨["int", "a,b"], .semicolon⟩, 33) := by
    decide +kernel
  obtain ⟨htokens, hrecords⟩ := tokens_of_code true text
  obtain ⟨hsublist, hclean⟩ := htokens 9 33 _ hstatement
  exact ⟨hstatement, by decide +kernel, hsublist, hclean, by decide +kernel, hrecords⟩

end JavaOutline
