import JavaOutline.Proofs.Restoring
import JavaOutline.Proofs.SideBySide

/-!
# JavaOutline.Proofs.Sessions

What reading a text does to a registry.

* `Registry.Built` are the registries that come from registering, merging
  and reading; they say the truth (`Registry.Built.valid`), so a name is
  free exactly if no record has it.
* `Progress.enclosedTypes` lists the types of a text that are entered inside
  of others.  The record of a type is complete when its body ends, so it
  comes after those of the types inside (`Progress.sublist_records`).

`Registry.readText_appends` puts this together: a text appends what it
reports.
-/

namespace JavaOutline

namespace Registry

/-! ## Registries that are built -/

/-- The registries that come from registering records, merging other
registries and reading texts. -/
inductive Built : Registry → Prop
  | empty : Built empty
  | register {r r' : Registry} {record : TypeRecord} (h : Built r)
      (hregister : r.register record = .ok r') : Built r'
  | merge {r other : Registry} (h : Built r) (hother : Built other) : Built (r.merge other).1
  | readText {r : Registry} (h : Built r) (withLocals : Bool) (text : String) :
      Built (r.readText withLocals text).1

/-- Registering a record whose name is free. -/
theorem Built.append {r : Registry} (h : r.Built) {record : TypeRecord}
    (hfree : r.contains record.fullName = false) : (r.append record).Built :=
  .register h (register_of_not_contains hfree)

/-- Appending the fresh records of a list keeps a registry valid. -/
theorem Valid.foldl_append {r : Registry} (h : r.Valid) (records : List TypeRecord) :
    ((r.fresh records).foldl Registry.append r).Valid :=
  foldl_fresh_invariant (fun _ _ hfree hr => hr.append hfree) h records

theorem Valid.registerAll {r : Registry} (h : r.Valid) (records : List TypeRecord) :
    (r.registerAll records).registry.Valid := by
  rw [registry_registerAll]
  exact h.foldl_append records

theorem Built.valid {r : Registry} (h : r.Built) : r.Valid := by
  induction h with
  | empty => exact valid_empty
  | @register r r' record _ hregister ih =>
      obtain ⟨hfree, rfl⟩ := eq_append_of_register hregister
      exact ih.append hfree
  | merge _ _ ih _ => exact ih.registerAll _
  | readText _ withLocals text ih =>
      rw [readText_eq]
      exact ih.registerAll _

end Registry

namespace Progress

/-! ## Types inside of types -/

/-- The full name of the type whose body a statement enters. -/
def Visit.typeName? (withLocals : Bool) (v : Visit) : Option String :=
  match v.move withLocals with
  | .enter q (.type header) _ _ => some (q.typeName header)
  | _ => none

/-- The statements that are read in the body that a statement enters. -/
def Visit.inside (withLocals : Bool) (v : Visit) : List Visit :=
  match v.move withLocals with
  | .enter q owner body rest => (q.openBody rest owner).visits withLocals body
  | _ => []

/-- The records that are complete before the body that a statement enters
ends. -/
def Visit.recordsInside (withLocals : Bool) (v : Visit) : List TypeRecord :=
  match v.move withLocals with
  | .enter q owner body rest => ((q.openBody rest owner).read withLocals body).records
  | _ => []

/-- The full names of the types that are entered inside of others, each with
that of the type around it; a type in the body of a method is inside of the
type of the method. -/
def enclosedTypes (withLocals : Bool) (text : List Char) : List (String × String) :=
  (Progress.start.visits withLocals text).flatMap fun v =>
    (v.typeName? withLocals).toList.flatMap fun outer =>
      ((v.inside withLocals).filterMap (Visit.typeName? withLocals)).map fun inner =>
        (inner, outer)

section

variable {withLocals : Bool} {p q : Progress} {text body rest : List Char}

theorem records_closeBody (p : Progress) (owner : Owner) :
    p.records <+: (p.closeBody owner).records := by
  cases owner with
  | type header =>
      simp only [closeBody, closeType]
      split
      · exact List.prefix_refl _
      · exact List.prefix_append _ _
  | method method =>
      simp only [closeBody, closeMethod]
      split <;> exact List.prefix_refl _

/-- A type that has been read leaves its record behind all others. -/
theorem records_closeType {t : TypeRecord} (h : p.nesting.record? = some t) :
    p.closeType.records = p.records ++ [t] := by
  obtain ⟨⟨file, frames⟩, records⟩ := p
  cases frames with
  | nil => cases h
  | cons frame outer =>
      cases h
      rfl

/-- The record of a type that is entered comes right after those of the
types inside of it, and stays there. -/
theorem exists_record_of_typeName? {v : Visit} {full : String} (hv : v ∈ p.visits withLocals text)
    (hfull : v.typeName? withLocals = some full) :
    ∃ t : TypeRecord, t.fullName = full ∧
      v.recordsInside withLocals ++ [t] <+: (p.read withLocals text).records := by
  induction p, text using read_induction withLocals with
  | cutOff p text hscan =>
      rw [visits_of_scan_eq_none hscan] at hv
      cases hv
  | leave p text statement rest q hscan hmove =>
      rw [visits_of_scan hscan, hmove] at hv
      rcases List.mem_cons.1 hv with rfl | hv
      · simp [Visit.typeName?, Visit.move, hmove] at hfull
      · cases hv
  | goOn p text statement rest q next hscan hmove ih =>
      rw [visits_of_scan hscan, hmove] at hv
      rw [read_of_scan_of_move hscan, hmove]
      rcases List.mem_cons.1 hv with rfl | hv
      · simp [Visit.typeName?, Visit.move, hmove] at hfull
      · exact ih hv
  | enter p text statement rest q owner body hscan hmove ihbody ihrest =>
      -- Closing the body and reading on only add to the records.
      have hclosed := records_closeBody ((q.openBody rest owner).read withLocals body) owner
      have hrest := (keeps_read withLocals
        (((q.openBody rest owner).read withLocals body).closeBody owner) rest).records
      rw [visits_of_scan hscan, hmove] at hv
      rw [read_of_scan_of_move hscan, hmove]
      rcases List.mem_cons.1 hv with rfl | hv
      · cases owner with
        | type header =>
            obtain ⟨t, ht, hname⟩ := exists_record_of_openType withLocals q header rest body
            simp only [Visit.typeName?, Visit.move, hmove, Option.some.injEq] at hfull
            simp only [Visit.recordsInside, Visit.move, hmove]
            exact ⟨t, hname.trans hfull, records_closeType ht ▸ hrest⟩
        | method method => simp [Visit.typeName?, Visit.move, hmove] at hfull
      rcases List.mem_append.1 hv with hv | hv
      · obtain ⟨t, hname, hbegins⟩ := ihbody hv
        exact ⟨t, hname, (hbegins.trans hclosed).trans hrest⟩
      · exact ihrest hv

/-- A type inside of another is complete before it. -/
theorem mem_recordsInside {v w : Visit} {full : String} (hw : w ∈ v.inside withLocals)
    (hfull : w.typeName? withLocals = some full) :
    full ∈ (v.recordsInside withLocals).map TypeRecord.fullName := by
  simp only [Visit.inside] at hw
  simp only [Visit.recordsInside]
  split at hw
  · obtain ⟨t, rfl, hbegins⟩ := exists_record_of_typeName? hw hfull
    exact List.mem_map_of_mem (hbegins.subset (by simp))
  · cases hw

/-- Of two types, one inside of the other, the inner one comes first. -/
theorem sublist_records {inner outer : String}
    (h : (inner, outer) ∈ enclosedTypes withLocals text) :
    [inner, outer].Sublist
      ((Progress.start.read withLocals text).records.map TypeRecord.fullName) := by
  obtain ⟨v, hv, hpair⟩ := List.mem_flatMap.1 h
  obtain ⟨outer', houter, hpair⟩ := List.mem_flatMap.1 hpair
  obtain ⟨inner', hinner, heq⟩ := List.mem_map.1 hpair
  cases heq
  obtain ⟨w, hw, hinner⟩ := List.mem_filterMap.1 hinner
  obtain ⟨t, rfl, hbegins⟩ := exists_record_of_typeName? hv (Option.mem_toList.1 houter)
  have hpair : [inner, t.fullName].Sublist
      ((v.recordsInside withLocals ++ [t]).map TypeRecord.fullName) := by
    rw [List.map_append]
    exact (List.singleton_sublist.2 (mem_recordsInside hw hinner)).append (List.Sublist.refl _)
  exact hpair.trans (hbegins.sublist.map TypeRecord.fullName)

end

end Progress

namespace Registry

/-- **A text appends what it reports.**  Reading a text leaves the records of
a registry that was built as they were and appends new ones; it returns their
full names in order, which are distinct and were free.  It comes to the same
as merging what reading the text on its own leaves, of whose names those that
are not skipped are returned.  If the types of the text have distinct full
names and the registry was empty, the name of a type comes after those of the
types inside of it. -/
theorem readText_appends {r : Registry} (hr : r.Built) (withLocals : Bool) (text : String) :
    (∃ new, (r.readText withLocals text).1.toList = r.toList ++ new ∧
      (r.readText withLocals text).2 = new.map TypeRecord.fullName) ∧
    (r.readText withLocals text).2.Nodup ∧
    (∀ name ∈ (r.readText withLocals text).2, name ∉ r.names ∧ r.contains name = false) ∧
    (r.merge (empty.readText withLocals text).1).1 = (r.readText withLocals text).1 ∧
    ((empty.readText withLocals text).2.filter fun name =>
      !(r.merge (empty.readText withLocals text).1).2.contains name) =
        (r.readText withLocals text).2 ∧
    (r = empty → ((outline withLocals text).map TypeRecord.fullName).Nodup →
      ∀ pair ∈ Progress.enclosedTypes withLocals text.toList,
        [pair.1, pair.2].Sublist (r.readText withLocals text).2) := by
  obtain ⟨hmerged, hkept⟩ := r.merge_readText_empty withLocals text
  have hnames : (r.readText withLocals text).2 =
      (r.fresh (outline withLocals text)).map TypeRecord.fullName := by
    simp [readText_eq]
  refine ⟨⟨r.fresh (outline withLocals text), by simp [readText_eq], hnames⟩,
    by rw [hnames]; exact nodup_fresh r _, fun name hname => ?_, hmerged, hkept, ?_⟩
  · rw [hnames] at hname
    obtain ⟨record, hrecord, rfl⟩ := List.mem_map.1 hname
    have hfree := not_contains_of_mem_fresh hrecord
    refine ⟨fun htaken => ?_, hfree⟩
    rw [hr.valid.contains_iff.2 htaken] at hfree
    cases hfree
  · rintro rfl hdistinct ⟨inner, outer⟩ hpair
    have hall : empty.fresh (outline withLocals text) = outline withLocals text := by
      rw [fresh_eq_filter hdistinct]
      simp
    rw [hnames, hall]
    exact Progress.sublist_records hpair

/-- A class with a nested class and one in a method. -/
def nestedText : String := "class A \x7b class B \x7b \x7d int m ( ) \x7b class C \x7b \x7d \x7d \x7d"

theorem readText_appends_nested :
    empty.Built ∧ ((outline true nestedText).map TypeRecord.fullName).Nodup ∧
      (empty.readText true nestedText).2 = ["A.B", "A.C", "A"] ∧
      ["A.C", "A"].Sublist (empty.readText true nestedText).2 ∧
      ∀ name ∈ ((empty.readText true nestedText).1.readText false nestedText).2,
        name ∉ (empty.readText true nestedText).1.names := by
  have hdistinct : ((outline true nestedText).map TypeRecord.fullName).Nodup := by decide +kernel
  have hinside : ("A.C", "A") ∈ Progress.enclosedTypes true nestedText.toList := by decide +kernel
  have hempty : empty.Built := .empty
  obtain ⟨_, _, _, _, _, hlast⟩ := readText_appends hempty true nestedText
  obtain ⟨_, _, hfree, _⟩ := readText_appends (hempty.readText true nestedText) false nestedText
  exact ⟨hempty, hdistinct, by decide +kernel, hlast rfl hdistinct _ hinside,
    fun name hname => (hfree name hname).1⟩

end Registry

end JavaOutline
