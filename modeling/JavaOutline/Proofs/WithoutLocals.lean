import JavaOutline.Proofs.PassingOver
import JavaOutline.Proofs.Registering
import JavaOutline.Proofs.Views

/-!
# JavaOutline.Proofs.WithoutLocals

What is lost when the bodies of methods are passed over.  Two relations
accompany the reading of a text without and with them:

* `Progress.NamesAmong`: the bodies around have the same names and scopes,
  and the names of the first are among those of the second;
* `Progress.WithoutLocals`: nothing differs but the variables of methods, as
  long as no type is entered inside of a method.

`Registry.readText_withoutLocals` says what this means for a registry.
-/

namespace JavaOutline

/-! ## Records seen otherwise -/

/-- A record of which only the name is seen. -/
def TypeRecord.heading (t : TypeRecord) : TypeRecord where
  packagePath := t.packagePath
  name := t.name
  kind := .classType
  superName := none
  outerName := none
  interfaceNames := []
  fields := []
  methods := []
  imports := .empty

theorem TypeRecord.SameButMembers.heading_eq {t t' : TypeRecord} (h : t.SameButMembers t') :
    t'.heading = t.heading := by
  obtain ⟨_, _, rfl⟩ := h
  rfl

theorem TypeRecord.heading_learn (t : TypeRecord) (entries : List (String × String)) :
    (t.learn entries).heading = t.heading := by
  induction entries generalizing t with
  | nil => rfl
  | cons entry entries ih => exact ih _

namespace Nesting

variable {place other : Type} (g : TypeRecord → TypeRecord) (h : place → other) (n : Nesting place)

/-- A change that cannot be seen in the innermost record. -/
theorem map_mapRecord_of_eq {f : TypeRecord → TypeRecord} (hf : ∀ t, g (f t) = g t) :
    (n.mapRecord f).map g h = n.map g h := by
  obtain ⟨file, frames⟩ := n
  cases frames with
  | nil => rfl
  | cons frame outer => simp [mapRecord, map, Frame.map, hf]

/-- A change that cannot be seen in the innermost type. -/
theorem map_mapEnclosing_of_eq {f : TypeRecord → TypeRecord} (hf : ∀ t, g (f t) = g t) :
    (n.mapEnclosing f).map g h = n.map g h := by
  have hmapped : (n.mapEnclosing f).map g h = (n.map g h).mapEnclosing fun t => t :=
    map_mapEnclosing g h n hf
  rw [hmapped, mapEnclosing, mapEnclosingOf_id]

end Nesting

namespace Progress

theorem outsideMethods_iff_of_map {p q : Progress} {g : TypeRecord → TypeRecord}
    (h : q.nesting = p.nesting.map g id) : q.OutsideMethods ↔ p.OutsideMethods := by
  simp [OutsideMethods, h, Nesting.map, Frame.map]

/-! ## The names of types -/

/-- The bodies around have the same names and scopes, and the names of the
records of the first are among those of the second. -/
structure NamesAmong (p q : Progress) : Prop where
  outside : p.OutsideMethods
  nesting : p.nesting.map TypeRecord.heading id = q.nesting.map TypeRecord.heading id
  names : (p.records.map TypeRecord.fullName).Sublist (q.records.map TypeRecord.fullName)

namespace NamesAmong

variable {p q : Progress}

theorem scope_eq (h : NamesAmong p q) : p.nesting.scope = q.nesting.scope := by
  have hscope := congrArg Nesting.scope h.nesting
  simpa using hscope

theorem outside' (h : NamesAmong p q) : q.OutsideMethods := by
  have hp : (⟨p.nesting.map TypeRecord.heading id, []⟩ : Progress).OutsideMethods :=
    (outsideMethods_iff_of_map rfl).2 h.outside
  exact (outsideMethods_iff_of_map h.nesting).1 hp

theorem level_eq (h : NamesAmong p q) : p.nesting.level = q.nesting.level := by
  have hlevel := congrArg Nesting.level h.nesting
  simpa using hlevel

theorem heading_declare (p : Progress) (d : Declaration) :
    (p.declare d).nesting.map TypeRecord.heading id =
      p.nesting.map TypeRecord.heading id := by
  cases d with
  | nothing => rfl
  | type header => rfl
  | fields members =>
      exact Nesting.map_mapRecord_of_eq _ _ _ fun t =>
        (TypeRecord.SameButMembers.addFields t members).heading_eq
  | method m =>
      exact Nesting.map_mapRecord_of_eq _ _ _ fun t =>
        (TypeRecord.SameButMembers.addMethod t m).heading_eq

/-- The name of a type that is entered comes from its header and the scope. -/
theorem heading_openType (p : Progress) (header : TypeHeader) (resume : List Char) :
    (p.openType header resume).nesting.map TypeRecord.heading id =
      (p.nesting.map TypeRecord.heading id).push
        ⟨.typeBody, ⟨qualify p.nesting.scope.path header.name,
            p.nesting.scope.imports.insert header.name (qualify p.nesting.scope.path header.name)⟩,
          (TypeRecord.start (qualify p.nesting.scope.path header.name) header.kind).heading,
          resume⟩ := by
  have hplain := Nesting.map_mapEnclosing_of_eq TypeRecord.heading id p.nesting
    (f := fun outer => outer.addImport header.name (qualify p.nesting.scope.path header.name))
    fun _ => rfl
  rw [← hplain, openType]
  simp only [Nesting.push, Nesting.map, Frame.map, List.map_cons]
  congr 3
  split <;> rfl

theorem mapScope (h : NamesAmong p q) (f : Scope → Scope) :
    NamesAmong (p.mapScope f) (q.mapScope f) where
  outside := (outsideMethods_iff_of_keeps (.mapScope f p)).1 h.outside
  nesting := by
    simp only [Progress.mapScope, Nesting.map_mapScope, h.nesting]
  names := h.names

theorem declare (h : NamesAmong p q) (d d' : Declaration) :
    NamesAmong (p.declare d) (q.declare d') where
  outside := (outsideMethods_iff_of_keeps (.declare p d)).1 h.outside
  nesting := by rw [heading_declare, heading_declare, h.nesting]
  names := by cases d <;> cases d' <;> exact h.names

theorem openType (h : NamesAmong p q) (header : TypeHeader) (resume : List Char) :
    NamesAmong (p.openType header resume) (q.openType header resume) where
  outside := outsideMethods_openType h.outside header resume
  nesting := by rw [heading_openType, heading_openType, h.nesting, h.scope_eq]
  names := h.names

theorem closeType (h : NamesAmong p q) : NamesAmong p.closeType q.closeType := by
  obtain ⟨⟨file, frames⟩, records⟩ := p
  obtain ⟨⟨file', frames'⟩, records'⟩ := q
  have hnesting := h.nesting
  simp only [Nesting.map, Nesting.mk.injEq] at hnesting
  cases frames with
  | nil =>
      cases frames' with
      | nil => exact h
      | cons frame' outer' => cases hnesting.2
  | cons frame outer =>
      cases frames' with
      | nil => cases hnesting.2
      | cons frame' outer' =>
          obtain ⟨hfile, hframes⟩ := hnesting
          simp only [List.map_cons, List.cons.injEq] at hframes
          obtain ⟨hframe, houter⟩ := hframes
          have hheading := congrArg (fun f : Frame (List Char) => f.record.fullName) hframe
          have hname : frame.record.fullName = frame'.record.fullName := hheading
          refine ⟨outsideMethods_closeType h.outside, ?_, ?_⟩
          · simp only [Progress.closeType, Nesting.pop?, Nesting.map, hfile, houter]
          · simp only [Progress.closeType, Nesting.pop?, List.map_append, List.map_cons,
              List.map_nil, hname]
            exact h.names.append (List.Sublist.refl _)

/-- What a method learns cannot be seen, and what its types are called comes
in addition. -/
theorem closeMethod (h : NamesAmong p q) (m : Method) (rest body : List Char) :
    NamesAmong (p.declare (.method m))
      (((q.openMethod rest).read true body).closeMethod m) := by
  obtain ⟨records, locals, _, hclosed⟩ := closeMethod_read true q m rest body
  rw [hclosed]
  refine declare ⟨h.outside, ?_, ?_⟩ _ _
  · rw [Nesting.map_mapEnclosing_of_eq _ _ _ fun t => TypeRecord.heading_learn t _, h.nesting]
  · rw [List.map_append]
    exact h.names.trans (List.sublist_append_left _ _)

end NamesAmong

/-- The names of types are kept apart from what is inside of methods. -/
theorem accompanies_namesAmong : Accompanies (fun _ => True) NamesAmong where
  level h := h.level_eq
  outside h := h.outside
  outside' h := h.outside'
  mapScope h f := h.mapScope f
  declare h d _ := h.declare d d
  openType h header resume := h.openType header resume
  closeType h := h.closeType
  method h m _ rest body _ := h.closeMethod m rest body

/-! ## Only variables differ -/

/-- What has been read, without the variables of methods. -/
def withoutLocals (p : Progress) : Progress :=
  ⟨p.nesting.map TypeRecord.withoutLocals id, p.records.map TypeRecord.withoutLocals⟩

/-- Nothing differs but the variables of methods. -/
def WithoutLocals (p q : Progress) : Prop := q.OutsideMethods ∧ p = q.withoutLocals


section

variable {p q : Progress}

theorem withoutLocals_declare (q : Progress) (d : Declaration) :
    (q.declare d).withoutLocals = q.withoutLocals.declare d.withoutLocals := by
  cases d with
  | nothing => rfl
  | type header => rfl
  | fields members =>
      simp only [declare, withoutLocals, mapRecord]
      rw [Nesting.map_mapRecord]
      · rfl
      · intro t
        simp [foldl_addField, TypeRecord.withoutLocals]
  | method m =>
      simp only [declare, withoutLocals, mapRecord]
      have hmapped : (q.nesting.mapRecord fun t => t.addMethod m).map TypeRecord.withoutLocals id =
          (q.nesting.map TypeRecord.withoutLocals id).mapRecord fun t =>
            t.addMethod m.withoutLocals :=
        Nesting.map_mapRecord _ _ _ fun t => t.withoutLocals_addMethod m
      rw [hmapped]
      rfl

theorem withoutLocals_openType (q : Progress) (header : TypeHeader) (resume : List Char) :
    (q.openType header resume).withoutLocals = q.withoutLocals.openType header resume := by
  have hlearned : (q.nesting.mapEnclosing fun outer => outer.addImport header.name
      (qualify q.nesting.scope.path header.name)).map TypeRecord.withoutLocals id =
      (q.nesting.map TypeRecord.withoutLocals id).mapEnclosing fun outer =>
        outer.addImport header.name (qualify q.nesting.scope.path header.name) :=
    Nesting.map_mapEnclosing _ _ _ fun _ => rfl
  have hframe := Nesting.map_typeFrame TypeRecord.withoutLocals id q.nesting (fun _ => rfl)
    (fun _ => rfl) TypeRecord.withoutLocals_of_methods_eq_nil header resume
  rw [openType_eq_push, openType_eq_push]
  simp only [withoutLocals, Nesting.map_push, hlearned, hframe, Nesting.scope_map, id_eq]

theorem withoutLocals_closeType (q : Progress) :
    q.closeType.withoutLocals = q.withoutLocals.closeType := by
  obtain ⟨⟨file, frames⟩, records⟩ := q
  cases frames with
  | nil => rfl
  | cons frame outer =>
      simp [closeType, withoutLocals, Nesting.map, Frame.map, Nesting.pop?]

/-- Where no type is entered, nothing is learned and no record is added. -/
theorem learned_of_typeless {withLocals : Bool} {text : List Char}
    (h : ∀ v ∈ p.visits withLocals text, v.typeName? withLocals = none) :
    p.learned withLocals text = [] ∧ (p.read withLocals text).records = p.records := by
  induction p, text using read_induction withLocals with
  | cutOff p text hscan =>
      rw [learned_of_scan_eq_none hscan, read_of_scan_eq_none hscan]
      exact ⟨rfl, rfl⟩
  | leave p text statement rest q hscan hmove =>
      have hq := records_move withLocals p statement rest
      rw [learned_of_scan hscan, read_of_scan_of_move hscan, hmove]
      rw [hmove] at hq
      exact ⟨rfl, hq⟩
  | goOn p text statement rest q next hscan hmove ih =>
      have hq := records_move withLocals p statement rest
      rw [visits_of_scan hscan] at h
      rw [learned_of_scan hscan, read_of_scan_of_move hscan]
      rw [hmove] at h hq ⊢
      obtain ⟨hlearned, hrecords⟩ := ih fun v hv => h v (List.mem_cons_of_mem _ hv)
      exact ⟨hlearned, hrecords.trans hq⟩
  | enter p text statement rest q owner body hscan hmove ihbody ihrest =>
      have hq := records_move withLocals p statement rest
      rw [visits_of_scan hscan] at h
      rw [learned_of_scan hscan, read_of_scan_of_move hscan]
      rw [hmove] at h hq ⊢
      cases owner with
      | type header =>
          have htype := h _ List.mem_cons_self
          simp [Visit.typeName?, Visit.move, hmove] at htype
      | method m =>
          obtain ⟨hbody, hbodyRecords⟩ := ihbody fun v hv =>
            h v (List.mem_cons_of_mem _ (List.mem_append_left _ hv))
          obtain ⟨hrest, hrestRecords⟩ := ihrest fun v hv =>
            h v (List.mem_cons_of_mem _ (List.mem_append_right _ hv))
          obtain ⟨records, locals, hinside, hclosed⟩ := closeMethod_read withLocals q m rest body
          refine ⟨?_, hrestRecords.trans ?_⟩
          · simp only [Move.learned, learnedIn, entry?, hbody, hrest, List.append_nil]
          · exact (congrArg Progress.records hclosed).trans
              (hinside.symm.trans (hbodyRecords.trans hq))

/-- A method in which no type is entered only differs by its variables. -/
theorem withoutLocals_closeMethod (q : Progress) {m : Method} (hlocals : m.withoutLocals = m)
    {rest body : List Char}
    (h : ∀ v ∈ (q.openMethod rest).visits true body, v.typeName? true = none) :
    (((q.openMethod rest).read true body).closeMethod m).withoutLocals =
      q.withoutLocals.declare (.method m) := by
  obtain ⟨hlearned, hrecords⟩ := learned_of_typeless h
  obtain ⟨records, locals, hinside, hclosed⟩ := closeMethod_read true q m rest body
  have hsame : q.records ++ records = q.records := hinside.symm.trans hrecords
  have hm : ({ m with locals } : Method).withoutLocals = m := hlocals
  rw [hclosed, hlearned, hsame, withoutLocals_declare, Declaration.withoutLocals, hm]
  have hplain : q.nesting.mapEnclosing (fun t => t.learn []) = q.nesting := by
    simp [Nesting.mapEnclosing, Nesting.mapEnclosingOf_id]
  rw [hplain]

end

/-- As long as no type is entered inside of a method, only variables differ. -/
theorem accompanies_withoutLocals : Accompanies
    (fun v => (v.typeName? true).isSome → v.progress.OutsideMethods) WithoutLocals where
  level h := by rw [h.2]; exact Nesting.level_map _ _ _
  outside h := (outsideMethods_iff_of_map (congrArg nesting h.2)).2 h.1
  outside' h := h.1
  mapScope h f := by
    refine ⟨(outsideMethods_iff_of_keeps (.mapScope f _)).1 h.1, ?_⟩
    simp only [h.2, withoutLocals, mapScope, Nesting.map_mapScope]
  declare h d hlocals := by
    refine ⟨(outsideMethods_iff_of_keeps (.declare _ d)).1 h.1, ?_⟩
    rw [h.2, withoutLocals_declare, hlocals]
  openType h header resume := by
    refine ⟨outsideMethods_openType h.1 header resume, ?_⟩
    rw [h.2, withoutLocals_openType]
  closeType h := by
    refine ⟨outsideMethods_closeType h.1, ?_⟩
    rw [h.2, withoutLocals_closeType]
  method {p q} h m hlocals rest body hC := by
    have htypeless : ∀ v ∈ (q.openMethod rest).visits true body, v.typeName? true = none := by
      intro v hv
      rw [← Option.not_isSome_iff_eq_none]
      intro htype
      -- The frame of the method stays below every statement of its body.
      have hmethod := outsideMethods_of_mem_visits hv (hC v hv htype) _ List.mem_cons_self
      cases hmethod
    refine ⟨(outsideMethods_iff_of_keeps (keeps_closeBody true q (.method m) rest body)).1 h.1, ?_⟩
    rw [h.2, withoutLocals_closeMethod q hlocals htypeless]

end Progress

namespace Registry

/-! ## Registries -/

/-- Which records are fresh depends on their names only. -/
theorem fresh_map_withoutLocals {r r' : Registry}
    (h : ∀ full, r.contains full = r'.contains full) (records : List TypeRecord) :
    r.fresh (records.map TypeRecord.withoutLocals) =
      (r'.fresh records).map TypeRecord.withoutLocals := by
  induction records generalizing r r' with
  | nil => rfl
  | cons record records ih =>
      have hgrown : ∀ full, (r.append record.withoutLocals).contains full =
          (r'.append record).contains full := fun full => by simp [h]
      rw [List.map_cons, fresh, fresh, TypeRecord.fullName_withoutLocals, h]
      split
      · exact ih h
      · rw [ih hgrown, List.map_cons]

/-- **Passing over the bodies of methods only loses what is inside of them.**
A full name that is registered then is registered with the variables as well;
and if no type is entered inside of a method, the same names are returned and
the same records registered in the same order, without the variables of
methods. -/
theorem readText_withoutLocals (r : Registry) (text : String) :
    (∀ name ∈ (r.readText false text).1.names, name ∈ (r.readText true text).1.names) ∧
    ((∀ v ∈ Progress.start.visits true text.toList,
        (v.typeName? true).isSome → v.progress.OutsideMethods) →
      (r.readText false text).2 = (r.readText true text).2 ∧
      ∃ new, (r.readText true text).1.toList = r.toList ++ new ∧
        (r.readText false text).1.toList = r.toList ++ new.map TypeRecord.withoutLocals) := by
  have hoff : (r.readText false text).1.toList = r.toList ++ r.fresh (outline false text) := by
    simp [readText_eq]
  have hon : (r.readText true text).1.toList = r.toList ++ r.fresh (outline true text) := by
    simp [readText_eq]
  refine ⟨fun name hname => ?_, fun htypes => ?_⟩
  · have hstart : Progress.NamesAmong .start .start :=
      ⟨Progress.outsideMethods_start, rfl, .refl _⟩
    have hnames := (Progress.accompanies_namesAmong.read hstart fun v
      (_ : v ∈ Progress.start.visits true text.toList) => trivial).names
    rw [names, hoff, List.map_append, List.mem_append, mem_names_fresh_iff] at hname
    rw [names, hon, List.map_append, List.mem_append, mem_names_fresh_iff]
    exact hname.imp id fun h => ⟨hnames.subset h.1, h.2⟩
  · have hstart : Progress.WithoutLocals .start .start := ⟨Progress.outsideMethods_start, rfl⟩
    have hread := (Progress.accompanies_withoutLocals.read hstart htypes).2
    have hsame : outline false text = (outline true text).map TypeRecord.withoutLocals :=
      congrArg Progress.records hread
    have hfresh : r.fresh (outline false text) =
        (r.fresh (outline true text)).map TypeRecord.withoutLocals := by
      rw [hsame, fresh_map_withoutLocals fun _ => rfl]
    refine ⟨?_, r.fresh (outline true text), hon, by rw [hoff, hfresh]⟩
    simp only [readText_eq, accepted_registerAll, hfresh, List.map_map]
    rfl

/-- A class with a method that has a variable, and a nested class. -/
def countingClass : String := "class A \x7b int m ( ) \x7b int n ; \x7d class B \x7b \x7d \x7d"

theorem readText_withoutLocals_counting :
    (∀ v ∈ Progress.start.visits true countingClass.toList,
      (v.typeName? true).isSome → v.progress.OutsideMethods) ∧
    (empty.readText false countingClass).2 = (empty.readText true countingClass).2 ∧
    (∃ new, (empty.readText true countingClass).1.toList = empty.toList ++ new ∧
      (empty.readText false countingClass).1.toList =
        empty.toList ++ new.map TypeRecord.withoutLocals) ∧
    (empty.readText true countingClass).2 = ["A.B", "A"] := by
  have htypes : ∀ v ∈ Progress.start.visits true countingClass.toList,
      (v.typeName? true).isSome → v.progress.OutsideMethods := by decide +kernel
  obtain ⟨hnames, hrecords⟩ := (readText_withoutLocals empty countingClass).2 htypes
  exact ⟨htypes, hnames, hrecords, by decide +kernel⟩

/-- A class inside of a method is lost. -/
example :
    (empty.readText true "class A \x7b int m ( ) \x7b class C \x7b \x7d \x7d \x7d").2 = ["A.C", "A"] ∧
      (empty.readText false "class A \x7b int m ( ) \x7b class C \x7b \x7d \x7d \x7d").2 = ["A"] := by
  decide +kernel

end Registry

end JavaOutline
