import JavaOutline.Outline

/-!
# JavaOutline.Proofs.Views

Nestings seen otherwise: with other records in their bodies, and with other
places where the text goes on after them.  The kinds of the bodies and their
scopes are the same in every view, and so is what is done to a nesting
(`Nesting.map_mapScope`, `Nesting.map_mapEnclosing`, `Nesting.map_enterBlock`
and so on), as long as the records are changed alike in the two views.
-/

namespace JavaOutline

variable {place other : Type}

/-- The body with its record and its place seen otherwise. -/
def Frame.map (g : TypeRecord → TypeRecord) (h : place → other) (frame : Frame place) :
    Frame other :=
  ⟨frame.kind, frame.scope, g frame.record, h frame.resume⟩

namespace Nesting

/-- The bodies with their records and places seen otherwise. -/
def map (g : TypeRecord → TypeRecord) (h : place → other) (n : Nesting place) : Nesting other :=
  ⟨n.file, n.frames.map (Frame.map g h)⟩

variable (g : TypeRecord → TypeRecord) (h : place → other) (n : Nesting place)

@[simp] theorem level_map : (n.map g h).level = n.level := by
  obtain ⟨file, frames⟩ := n
  cases frames with
  | nil => rfl
  | cons frame outer =>
      obtain ⟨kind, scope, record, resume⟩ := frame
      cases kind <;> rfl

@[simp] theorem scope_map : (n.map g h).scope = n.scope := by
  obtain ⟨file, frames⟩ := n
  cases frames <;> rfl

@[simp] theorem record?_map : (n.map g h).record? = n.record?.map g := by
  obtain ⟨file, frames⟩ := n
  cases frames <;> rfl

@[simp] theorem enclosing?_map : (n.map g h).enclosing? = n.enclosing?.map g := by
  obtain ⟨file, frames⟩ := n
  simp only [enclosing?, map]
  fun_induction enclosingOf frames with
  | case1 => rfl
  | case2 => rfl
  | case3 _ _ _ _ _ ih => exact ih

/-! ## Changes -/

theorem map_mapScope (f : Scope → Scope) :
    (n.mapScope f).map g h = (n.map g h).mapScope f := by
  obtain ⟨file, frames⟩ := n
  cases frames <;> rfl

theorem map_mapRecord {f f' : TypeRecord → TypeRecord} (hf : ∀ t, g (f t) = f' (g t)) :
    (n.mapRecord f).map g h = (n.map g h).mapRecord f' := by
  obtain ⟨file, frames⟩ := n
  cases frames with
  | nil => rfl
  | cons frame outer => simp [mapRecord, map, Frame.map, hf]

theorem map_mapEnclosing {f f' : TypeRecord → TypeRecord} (hf : ∀ t, g (f t) = f' (g t)) :
    (n.mapEnclosing f).map g h = (n.map g h).mapEnclosing f' := by
  obtain ⟨file, frames⟩ := n
  simp only [mapEnclosing, map]
  congr 1
  fun_induction mapEnclosingOf f frames with
  | case1 => rfl
  | case2 => simp [mapEnclosingOf, Frame.map, hf]
  | case3 _ _ _ _ _ ih => simp [mapEnclosingOf, Frame.map, ih]

theorem map_enterBlock : n.enterBlock.map g h = (n.map g h).enterBlock := by
  obtain ⟨file, frames⟩ := n
  cases frames with
  | nil => rfl
  | cons frame outer =>
      obtain ⟨kind, scope, record, resume⟩ := frame
      cases kind <;> rfl

theorem leaveBlock?_map : (n.map g h).leaveBlock? = n.leaveBlock?.map (Nesting.map g h) := by
  obtain ⟨file, frames⟩ := n
  cases frames with
  | nil => rfl
  | cons frame outer =>
      obtain ⟨kind, scope, record, resume⟩ := frame
      match kind with
      | .typeBody => rfl
      | .methodBody 0 => rfl
      | .methodBody (_ + 1) => rfl

theorem map_push (frame : Frame place) :
    (n.push frame).map g h = (n.map g h).push (frame.map g h) := rfl

theorem pop?_map :
    (n.map g h).pop? = n.pop?.map fun popped => (popped.1.map g h, popped.2.map g h) := by
  obtain ⟨file, frames⟩ := n
  cases frames <;> rfl

/-! ## Entering a type -/

/-- The frame of a type that is entered. -/
def typeFrame (n : Nesting place) (header : TypeHeader) (resume : place) : Frame place :=
  let path := qualify n.scope.path header.name
  let imports := n.scope.imports.insert header.name path
  let own := (TypeRecord.start path header.kind).addImports imports
  let placed :=
    match (n.mapEnclosing fun outer => outer.addImport header.name path).enclosing? with
    | none => own
    | some outer => (own.withOuter outer.name).addImports outer.imports
  ⟨.typeBody, ⟨path, imports⟩,
    { placed with superName := header.superName, interfaceNames := header.interfaceNames }, resume⟩

/-- What a type sees of the record around is the name and the imports. -/
theorem map_typeFrame (hname : ∀ t : TypeRecord, (g t).name = t.name)
    (himports : ∀ t : TypeRecord, (g t).imports = t.imports)
    (hplain : ∀ t : TypeRecord, t.methods = [] → g t = t) (header : TypeHeader) (resume : place) :
    (n.typeFrame header resume).map g h = (n.map g h).typeFrame header (h resume) := by
  simp only [typeFrame, Frame.map, scope_map, enclosing?_mapEnclosing, enclosing?_map]
  cases n.enclosing? with
  | none =>
      congr 1
      exact hplain _ rfl
  | some outer =>
      simp only [Option.map_some, TypeRecord.addImport, hname, himports]
      congr 1
      exact hplain _ rfl

end Nesting

theorem Progress.openType_eq_push (p : Progress) (header : TypeHeader) (resume : List Char) :
    p.openType header resume =
      ⟨(p.nesting.mapEnclosing fun outer =>
          outer.addImport header.name (qualify p.nesting.scope.path header.name)).push
        (p.nesting.typeFrame header resume), p.records⟩ := rfl

end JavaOutline
