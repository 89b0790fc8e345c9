import JavaOutline.Proofs.Views

/-!
# JavaOutline.Proofs.Places

What reading does to a nesting does not depend on the places where the
text goes on.  `Nesting.withoutPlaces` forgets them, a view of the nesting that
every change commutes with; so two readings of different texts can be compared
by `Progress.Same`, which ignores the places.
-/

namespace JavaOutline

/-- A frame without the place where the text goes on. -/
def Frame.withoutPlace {place : Type} (frame : Frame place) : Frame Unit :=
  ⟨frame.kind, frame.scope, frame.record, ()⟩

theorem Frame.record_eq_of_withoutPlace_eq {place other : Type} {frame : Frame place}
    {frame' : Frame other} (h : frame.withoutPlace = frame'.withoutPlace) :
    frame.record = frame'.record := by
  have hrecord := congrArg Frame.record h
  exact hrecord

namespace Nesting

variable {place : Type}

/-- A nesting without the places where the text goes on. -/
def withoutPlaces (n : Nesting place) : Nesting Unit := ⟨n.file, n.frames.map Frame.withoutPlace⟩

theorem withoutPlaces_eq_map (n : Nesting place) : n.withoutPlaces = n.map id fun _ => () := rfl

@[simp] theorem scope_withoutPlaces (n : Nesting place) : n.withoutPlaces.scope = n.scope :=
  n.scope_map id (fun _ => ())

@[simp] theorem record?_withoutPlaces (n : Nesting place) :
    n.withoutPlaces.record? = n.record? := by
  rw [withoutPlaces_eq_map, record?_map, Option.map_id_apply]

@[simp] theorem level_withoutPlaces (n : Nesting place) : n.withoutPlaces.level = n.level :=
  n.level_map id (fun _ => ())

@[simp] theorem withoutPlaces_mapScope (f : Scope → Scope) (n : Nesting place) :
    (n.mapScope f).withoutPlaces = n.withoutPlaces.mapScope f :=
  n.map_mapScope id (fun _ => ()) f

@[simp] theorem withoutPlaces_mapRecord (f : TypeRecord → TypeRecord) (n : Nesting place) :
    (n.mapRecord f).withoutPlaces = n.withoutPlaces.mapRecord f :=
  n.map_mapRecord id (fun _ => ()) fun _ => rfl

@[simp] theorem withoutPlaces_push (n : Nesting place) (frame : Frame place) :
    (n.push frame).withoutPlaces = n.withoutPlaces.push frame.withoutPlace := rfl

theorem pop?_withoutPlaces (n : Nesting place) : n.withoutPlaces.pop? =
    n.pop?.map fun popped => (popped.1.withoutPlace, popped.2.withoutPlaces) :=
  n.pop?_map id (fun _ => ())

@[simp] theorem withoutPlaces_enterBlock (n : Nesting place) :
    n.enterBlock.withoutPlaces = n.withoutPlaces.enterBlock :=
  n.map_enterBlock id (fun _ => ())

theorem leaveBlock?_withoutPlaces (n : Nesting place) :
    n.withoutPlaces.leaveBlock? = n.leaveBlock?.map withoutPlaces :=
  n.leaveBlock?_map id (fun _ => ())

@[simp] theorem enclosing?_withoutPlaces (n : Nesting place) :
    n.withoutPlaces.enclosing? = n.enclosing? := by
  rw [withoutPlaces_eq_map, enclosing?_map, Option.map_id_apply]

@[simp] theorem withoutPlaces_mapEnclosing (f : TypeRecord → TypeRecord) (n : Nesting place) :
    (n.mapEnclosing f).withoutPlaces = n.withoutPlaces.mapEnclosing f :=
  n.map_mapEnclosing id (fun _ => ()) fun _ => rfl

end Nesting

namespace Progress

/-! ## The same progress -/

/-- Two readings that have come to the same, apart from the places. -/
structure Same (p q : Progress) : Prop where
  nesting : p.nesting.withoutPlaces = q.nesting.withoutPlaces
  records : p.records = q.records

variable {p q : Progress}

theorem Same.level_eq (h : Same p q) : p.nesting.level = q.nesting.level := by
  rw [← Nesting.level_withoutPlaces, h.nesting, Nesting.level_withoutPlaces]

theorem Same.scope_eq (h : Same p q) : p.nesting.scope = q.nesting.scope := by
  rw [← Nesting.scope_withoutPlaces, h.nesting, Nesting.scope_withoutPlaces]

theorem Same.record?_eq (h : Same p q) : p.nesting.record? = q.nesting.record? := by
  rw [← Nesting.record?_withoutPlaces, h.nesting, Nesting.record?_withoutPlaces]

theorem Same.mapScope (h : Same p q) (f : Scope → Scope) : Same (p.mapScope f) (q.mapScope f) :=
  ⟨by simp [Progress.mapScope, h.nesting], h.records⟩

theorem Same.mapRecord (h : Same p q) (f : TypeRecord → TypeRecord) :
    Same (p.mapRecord f) (q.mapRecord f) :=
  ⟨by simp [Progress.mapRecord, h.nesting], h.records⟩

theorem Same.apply (h : Same p q) (clause : Clause) : Same (p.apply clause) (q.apply clause) := by
  cases clause with
  | package path => exact h.mapScope _
  | importOf full => exact h.mapScope _

theorem Same.foldl_apply (h : Same p q) (clauses : List Clause) :
    Same (clauses.foldl Progress.apply p) (clauses.foldl Progress.apply q) := by
  induction clauses generalizing p q with
  | nil => exact h
  | cons clause clauses ih => exact ih (h.apply clause)

theorem Same.declare (h : Same p q) (declaration : Declaration) :
    Same (p.declare declaration) (q.declare declaration) := by
  cases declaration with
  | nothing => exact h
  | type header => exact h
  | fields members => exact h.mapRecord _
  | method method => exact h.mapRecord _

theorem Same.enterBlock (h : Same p q) :
    Same { p with nesting := p.nesting.enterBlock } { q with nesting := q.nesting.enterBlock } :=
  ⟨by simp [h.nesting], h.records⟩

theorem Same.entersBlock_eq (h : Same p q) (tokens : List String) :
    p.entersBlock tokens = q.entersBlock tokens := by
  rw [entersBlock, entersBlock, h.level_eq]

theorem Same.openType (h : Same p q) (header : TypeHeader) (resume resume' : List Char) :
    Same (p.openType header resume) (q.openType header resume') := by
  constructor
  · have houter := congrArg (fun n => (n.mapEnclosing fun outer =>
      outer.addImport header.name (qualify q.nesting.scope.path header.name)).enclosing?) h.nesting
    simp only [← Nesting.withoutPlaces_mapEnclosing, Nesting.enclosing?_withoutPlaces] at houter
    simp only [Progress.openType, h.scope_eq, houter, Nesting.withoutPlaces_push,
      Nesting.withoutPlaces_mapEnclosing, h.nesting]
    rfl
  · exact h.records

theorem Same.closeType (h : Same p q) : Same p.closeType q.closeType := by
  have hpop := congrArg Nesting.pop? h.nesting
  rw [Nesting.pop?_withoutPlaces, Nesting.pop?_withoutPlaces] at hpop
  rw [Progress.closeType, Progress.closeType]
  cases hp : p.nesting.pop? with
  | none =>
      cases hq : q.nesting.pop? with
      | none => exact h
      | some popped => simp [hp, hq] at hpop
  | some popped =>
      obtain ⟨frame, outer⟩ := popped
      cases hq : q.nesting.pop? with
      | none => simp [hp, hq] at hpop
      | some popped' =>
          obtain ⟨frame', outer'⟩ := popped'
          simp only [hp, hq, Option.map_some, Option.some.injEq, Prod.mk.injEq] at hpop
          have hrecord := Frame.record_eq_of_withoutPlace_eq hpop.1
          dsimp only
          rw [hrecord, h.records]
          exact ⟨hpop.2, rfl⟩

theorem Same.openMethod (h : Same p q) (resume resume' : List Char) :
    Same (p.openMethod resume) (q.openMethod resume') := by
  constructor
  · simp only [Progress.openMethod, h.scope_eq, h.record?_eq, Nesting.withoutPlaces_push,
      h.nesting]
    rfl
  · exact h.records

theorem Same.closeMethod (h : Same p q) (method : Method) :
    Same (p.closeMethod method) (q.closeMethod method) := by
  have hpop := congrArg Nesting.pop? h.nesting
  rw [Nesting.pop?_withoutPlaces, Nesting.pop?_withoutPlaces] at hpop
  rw [Progress.closeMethod, Progress.closeMethod]
  cases hp : p.nesting.pop? with
  | none =>
      cases hq : q.nesting.pop? with
      | none => exact h
      | some popped => simp [hp, hq] at hpop
  | some popped =>
      obtain ⟨frame, outer⟩ := popped
      cases hq : q.nesting.pop? with
      | none => simp [hp, hq] at hpop
      | some popped' =>
          obtain ⟨frame', outer'⟩ := popped'
          simp only [hp, hq, Option.map_some, Option.some.injEq, Prod.mk.injEq] at hpop
          have hrecord := Frame.record_eq_of_withoutPlace_eq hpop.1
          have hsame : Same ⟨outer, p.records⟩ ⟨outer', q.records⟩ := ⟨hpop.2, h.records⟩
          dsimp only
          rw [hrecord]
          exact hsame.mapRecord _

/-- A brace closes a block in both readings or in neither. -/
theorem Same.leaveBlock (h : Same p q) :
    (p.nesting.leaveBlock? = none ∧ q.nesting.leaveBlock? = none) ∨
      ∃ n m, p.nesting.leaveBlock? = some n ∧ q.nesting.leaveBlock? = some m ∧
        Same { p with nesting := n } { q with nesting := m } := by
  have hleave := congrArg Nesting.leaveBlock? h.nesting
  rw [Nesting.leaveBlock?_withoutPlaces, Nesting.leaveBlock?_withoutPlaces] at hleave
  cases hp : p.nesting.leaveBlock? with
  | none =>
      cases hq : q.nesting.leaveBlock? with
      | none => exact .inl ⟨rfl, rfl⟩
      | some m => simp [hp, hq] at hleave
  | some n =>
      cases hq : q.nesting.leaveBlock? with
      | none => simp [hp, hq] at hleave
      | some m =>
          simp only [hp, hq, Option.map_some, Option.some.injEq] at hleave
          exact .inr ⟨n, m, rfl, rfl, hleave, h.records⟩

end Progress

end JavaOutline
