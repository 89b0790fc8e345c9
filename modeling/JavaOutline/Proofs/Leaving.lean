import JavaOutline.Proofs.Restoring

/-!
# JavaOutline.Proofs.Leaving

Bodies that are left.  Whatever the body of a type or a method holds, and
wherever reading stands, after the body its frame is the innermost again and
can be left, and the frames around are what they were, but for the record of
the innermost type (`Restored`): it has learned the name of the type that is
left, or the names of the types that were entered directly in the body of the
method.

* `Learns.pop?_type`, `Learns.pop?_method` — the frame that is left;
* `exists_visit_of_mem_learned` — where a method learns a name;
* `bodies_restore` — both kinds of bodies, and the whole text.
-/

namespace JavaOutline

/-! ## Restored frames -/

/-- Frames that are what they were, but for the record of the innermost type,
which has changed by `f`. -/
inductive RestoredFrames {place : Type} (f : TypeRecord → TypeRecord) :
    List (Frame place) → List (Frame place) → Prop
  | typeless {frames : List (Frame place)} (h : ∀ frame ∈ frames, frame.kind ≠ .typeBody) :
      RestoredFrames f frames frames
  | type {inner outer : List (Frame place)} {frame : Frame place}
      (hinner : ∀ other ∈ inner, other.kind ≠ .typeBody) (hkind : frame.kind = .typeBody) :
      RestoredFrames f (inner ++ frame :: outer)
        (inner ++ { frame with record := f frame.record } :: outer)

/-- A nesting that is restored: as deep as it was, with the same file, and
with the same frames but for the record of the innermost type. -/
structure Restored {place : Type} (f : TypeRecord → TypeRecord) (n m : Nesting place) : Prop where
  file : m.file = n.file
  depth : m.frames.length = n.frames.length
  frames : RestoredFrames f n.frames m.frames

section

variable {place : Type}

theorem RestoredFrames.length_eq {f : TypeRecord → TypeRecord} {frames frames' : List (Frame place)}
    (h : RestoredFrames f frames frames') : frames'.length = frames.length := by
  cases h with
  | typeless => rfl
  | type => simp

/-- A frame that is not of a type stays as it is. -/
theorem RestoredFrames.cons {f : TypeRecord → TypeRecord} {frame : Frame place}
    {frames frames' : List (Frame place)} (hkind : frame.kind ≠ .typeBody)
    (h : RestoredFrames f frames frames') : RestoredFrames f (frame :: frames) (frame :: frames') := by
  cases h with
  | typeless hframes => exact .typeless (List.forall_mem_cons.2 ⟨hkind, hframes⟩)
  | @type inner outer changed hinner htype =>
      exact @RestoredFrames.type _ f (frame :: inner) outer changed
        (List.forall_mem_cons.2 ⟨hkind, hinner⟩) htype

theorem restoredFrames_mapEnclosingOf (f : TypeRecord → TypeRecord) (frames : List (Frame place)) :
    RestoredFrames f frames (Nesting.mapEnclosingOf f frames) := by
  fun_induction Nesting.mapEnclosingOf f frames with
  | case1 => exact .typeless (List.forall_mem_nil _)
  | case2 scope record resume outer =>
      exact @RestoredFrames.type _ f [] outer _ (List.forall_mem_nil _) rfl
  | case3 depth scope record resume outer ih => exact ih.cons (by simp)

/-- Changing the innermost type restores everything else. -/
theorem restored_mapEnclosing (f : TypeRecord → TypeRecord) (n : Nesting place) :
    Restored f n (n.mapEnclosing f) :=
  have hframes := restoredFrames_mapEnclosingOf f n.frames
  ⟨rfl, hframes.length_eq, hframes⟩

end

/-! ## The frame that is left -/

namespace Learns

variable {place : Type} {entries : List (String × String)} {n m a b : Nesting place}
  {scope : Scope} {record : TypeRecord} {resume : place}

theorem pop?_type (h : Learns entries (n.push ⟨.typeBody, scope, record, resume⟩) m) :
    ∃ scope' record', m.pop? = some (⟨.typeBody, scope', record', resume⟩, n) := by
  obtain ⟨file, frames⟩ := n
  cases h with
  | type => exact ⟨_, _, rfl⟩

theorem pop?_method {depth : Nat}
    (h : Learns entries (n.push ⟨.methodBody depth, scope, record, resume⟩) m) :
    ∃ depth' scope' record', m.pop? =
      some (⟨.methodBody depth', scope', record', resume⟩, n.mapEnclosing (·.learn entries)) := by
  obtain ⟨file, frames⟩ := n
  cases h with
  | method _ houter =>
      subst houter
      exact ⟨_, _, _, rfl⟩

/-- Reading stands as deep as before. -/
theorem length_frames_eq (h : Learns entries a b) : b.frames.length = a.frames.length := by
  have hlength := congrArg List.length h.resumes_eq
  rwa [List.length_map, List.length_map] at hlength

theorem level_eq (h : Learns entries a b) : b.level = a.level := by
  cases h <;> rfl

end Learns

/-! ## What a method learns -/

/-- Only a statement in the body of a type declares a method. -/
theorem Reading.declaration_ofTokensAfter_ne_method {level : Level} (hlevel : level ≠ .typeBody)
    (m : Modifiers) (first : Bool) (tokens : List String) (method : Method) :
    (ofTokensAfter level m first tokens).declaration ≠ .method method := by
  have hmember (hfile : level ≠ .file) (m : Modifiers) (alone : Bool) (tokens : List String) :
      member level m alone tokens ≠ .method method := by
    have hbody : level = .methodBody := by
      cases level with
      | file => exact absurd rfl hfile
      | typeBody => exact absurd rfl hlevel
      | methodBody => rfl
    subst hbody
    unfold member
    split
    · simp
    · split
      · simp
      · next hnot => exact hnot method
  fun_induction ofTokensAfter level m first tokens with
  | case1 => simp [nothing]
  | case7 m first token rest _ _ _ _ _ kind _ =>
      cases TypeHeader.ofTokens? kind rest <;> simp [declaring]
  | case8 => simp [nothing]
  | case12 => rename_i hfile; exact hmember hfile _ _ _
  | case2 => assumption
  | case3 => assumption
  | case4 => assumption
  | case5 => assumption
  | case6 => assumption
  | case9 => assumption
  | case10 => assumption
  | case11 => assumption

namespace Progress

section

variable {withLocals : Bool} {p q : Progress} {owner : Owner} {statement : Statement (List Char)}
  {text rest body after : List Char}

/-- Outside the bodies of types only types are entered. -/
theorem exists_header_of_enter (hlevel : p.nesting.level ≠ .typeBody)
    (h : p.move withLocals statement rest = .enter q owner body after) :
    ∃ header, owner = .type header := by
  have howner := ownerOf?_of_enter h
  have hnot := Reading.declaration_ofTokensAfter_ne_method hlevel .absent true statement.tokens
  cases hcases : (Reading.ofTokens p.nesting.level statement.tokens).declaration with
  | nothing => rw [hcases] at howner; cases howner
  | fields members => rw [hcases] at howner; cases howner
  | type header => rw [hcases] at howner; cases howner; exact ⟨header, rfl⟩
  | method method => exact absurd hcases (hnot method)

end

/-- The names of the types that statements of a text enter directly in the
innermost body, each with what it means. -/
def EntersDirectly (withLocals : Bool) (p : Progress) (text : List Char)
    (entry : String × String) : Prop :=
  ∃ v ∈ p.visits withLocals text, v.progress.nesting.frames.length = p.nesting.frames.length ∧
    ∃ q header body rest, v.move withLocals = .enter q (.type header) body rest ∧
      entry = (header.name, qualify q.nesting.scope.path header.name)

/-- What a method learns are the names of types that are entered directly in
its body. -/
theorem entersDirectly_of_mem_learned (withLocals : Bool) (p : Progress) (text : List Char)
    (hlevel : p.nesting.level = .methodBody) {entry : String × String}
    (h : entry ∈ p.learned withLocals text) : p.EntersDirectly withLocals text entry := by
  induction p, text using read_induction withLocals with
  | cutOff p text hscan =>
      rw [learned_of_scan_eq_none hscan] at h
      cases h
  | leave p text statement rest q hscan hmove =>
      rw [learned_of_scan hscan, hmove] at h
      cases h
  | goOn p text statement rest q next hscan hmove ih =>
      have hlearns := learns_move withLocals p statement rest
      rw [hmove] at hlearns
      rw [learned_of_scan hscan, hmove] at h
      obtain ⟨v, hv, hdepth, henters⟩ := ih (hlearns.level_eq.trans hlevel) h
      refine ⟨v, ?_, hdepth.trans hlearns.length_frames_eq, henters⟩
      rw [visits_of_scan hscan, hmove]
      exact List.mem_cons_of_mem _ hv
  | enter p text statement rest q owner body hscan hmove _ ihrest =>
      have hlearns := learns_move withLocals p statement rest
      rw [hmove] at hlearns
      have hclosed := learns_closeBody withLocals q owner rest body
      obtain ⟨header, rfl⟩ := exists_header_of_enter (by simp [hlevel]) hmove
      rw [learned_of_scan hscan, hmove] at h
      rcases List.mem_append.1 h with hown | hlater
      · rw [List.mem_singleton.1 hown]
        refine ⟨⟨p, text, statement, rest⟩, ?_, rfl, q, header, body, rest, hmove, rfl⟩
        rw [visits_of_scan hscan]
        exact List.mem_cons_self
      · have hsame := hclosed.level_eq.trans (hlearns.level_eq.trans hlevel)
        obtain ⟨v, hv, hdepth, henters⟩ := ihrest hsame hlater
        refine ⟨v, ?_, hdepth.trans (hclosed.length_frames_eq.trans hlearns.length_frames_eq),
          henters⟩
        rw [visits_of_scan hscan, hmove]
        exact List.mem_cons_of_mem _ (List.mem_append_right _ hv)

/-! ## Both kinds of bodies -/

/-- Every frame that is opened while a text is read is left again. -/
theorem frames_read_start (withLocals : Bool) (text : List Char) :
    (start.read withLocals text).nesting.frames = [] := by
  have hlength := (learns_read withLocals start text).length_frames_eq
  exact List.length_eq_zero_iff.1 hlength

/-- **Bodies leave what is around as it was.**  Let a body be read, wherever
reading stands and whatever the text of the body is.

1. If it is the body of a type, its frame can be left, reading goes on at the
   place that was kept for it, and everything around is restored, but that the
   innermost type around has learned the name of the type.
2. If it is the body of a method, its frame can be left as well, and everything
   around is restored, but that the innermost type may have learned names of
   types that were entered directly in the body, which changes nothing of it
   but its imports.  Then the method is added with the variables of the body.
3. Reading a whole text ends at the level of the file. -/
theorem bodies_restore (withLocals : Bool) (q : Progress) (resume body : List Char) :
    (∀ header : TypeHeader,
      let path := qualify q.nesting.scope.path header.name
      let ended := (q.openType header resume).read withLocals body
      ∃ scope record around records,
        ended.nesting.pop? = some (⟨.typeBody, scope, record, resume⟩, around) ∧
        Restored (·.addImport header.name path) q.nesting around ∧
        ended.closeType = ⟨around, q.records ++ records ++ [record]⟩) ∧
    (∀ method : Method,
      let ended := (q.openMethod resume).read withLocals body
      ∃ depth scope record around entries records,
        ended.nesting.pop? = some (⟨.methodBody depth, scope, record, resume⟩, around) ∧
        Restored (·.learn entries) q.nesting around ∧
        (∀ entry ∈ entries, (q.openMethod resume).EntersDirectly withLocals body entry) ∧
        (∀ t : TypeRecord, ∃ imports, t.learn entries = { t with imports }) ∧
        ended.closeMethod method = (⟨around, q.records ++ records⟩ : Progress).mapRecord
          (·.addMethod { method with locals := record.fieldVariables })) ∧
    ∀ text, (start.read withLocals text).nesting.frames = [] := by
  refine ⟨fun header => ?_, fun method => ?_, frames_read_start withLocals⟩
  · intro path ended
    have hlearns := learns_read withLocals (q.openType header resume) body
    obtain ⟨scope, record, hpop⟩ := hlearns.pop?_type
    obtain ⟨records, hrecords⟩ := (keeps_read withLocals (q.openType header resume) body).records
    refine ⟨scope, record, _, records, hpop, restored_mapEnclosing _ q.nesting, ?_⟩
    rw [closeType, hpop, ← hrecords]
    rfl
  · intro ended
    have hlearns := learns_read withLocals (q.openMethod resume) body
    obtain ⟨depth, scope, record, hpop⟩ := hlearns.pop?_method
    obtain ⟨records, hrecords⟩ := (keeps_read withLocals (q.openMethod resume) body).records
    refine ⟨depth, scope, record, _, _, records, hpop, restored_mapEnclosing _ q.nesting,
      fun entry hentry => ?_, fun t => t.exists_learn_eq _, ?_⟩
    · exact entersDirectly_of_mem_learned withLocals _ body rfl hentry
    · rw [closeMethod, hpop, ← hrecords]
      rfl

/-- A type is entered in the body of a method of `A`. -/
theorem bodies_restore_local_type :
    let q := start.openType ⟨.classType, "A", none, []⟩ []
    let body := "int x; class L \x7b int y; \x7d \x7d".toList
    ∃ frame around entries,
      ((q.openMethod []).read true body).nesting.pop? = some (frame, around) ∧
      Restored (·.learn entries) q.nesting around ∧
      q.nesting.frames.map (fun f => f.record.imports.entries) = [[("A", "A")]] ∧
      around.frames.map (fun f => f.record.imports.entries) = [[("A", "A"), ("L", "A.L")]] ∧
      frame.record.fieldVariables = [⟨"x", some "int", false⟩] := by
  intro q body
  obtain ⟨depth, scope, record, around, entries, records, hpop, hrestored, -⟩ :=
    (bodies_restore true q [] body).2.1 default
  have hleft : ((q.openMethod []).read true body).nesting.pop?.map (fun left =>
      (left.2.frames.map fun f => f.record.imports.entries, left.1.record.fieldVariables)) =
        some ([[("A", "A"), ("L", "A.L")]], [⟨"x", some "int", false⟩]) := by
    decide +kernel
  rw [hpop, Option.map_some, Option.some.injEq, Prod.mk.injEq] at hleft
  exact ⟨_, around, entries, hpop, hrestored, by decide +kernel, hleft.1, hleft.2⟩

end Progress

end JavaOutline
