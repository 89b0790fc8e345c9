import JavaOutline.TypeRecord

/-!
# JavaOutline.Nesting

Where reading stands: at file level, or inside the bodies of types and
methods.  Each body has a frame with its own path, imports and record,
which is given up when the body ends; the frames around it are what they
were before.

The file has a path and imports but no record, and is never given up.
-/

namespace JavaOutline

/-- Where a statement stands. -/
inductive Level where
  | file
  | typeBody
  | methodBody
  deriving DecidableEq, Repr

/-- The path to which declared names are added, and what simple names
mean. -/
structure Scope where
  /-- The package, or the full name of the enclosing type. -/
  path : String
  imports : ImportTable
  deriving DecidableEq, Inhabited

/-- The scope of a text before anything is read. -/
def Scope.empty : Scope := ⟨"", .empty⟩

/-- What kind of body is read. -/
inductive BodyKind where
  | typeBody
  /-- The body of a method or constructor, with the number of blocks open
  in it. -/
  | methodBody (depth : Nat)
  deriving DecidableEq, Repr

/-- A body that is being read. -/
structure Frame (place : Type) where
  kind : BodyKind
  scope : Scope
  /-- The record of the type, or the variables of the method. -/
  record : TypeRecord
  /-- Where the text goes on after the body. -/
  resume : place
  deriving DecidableEq

/-- The frame of a method body, whose variables are collected in a record
of their own. -/
def Frame.ofMethod {place : Type} (scope : Scope) (imports : ImportTable) (resume : place) :
    Frame place :=
  ⟨.methodBody 0, scope, .locals imports, resume⟩

/-- The scope of a file and the bodies open in it, innermost first. -/
structure Nesting (place : Type) where
  file : Scope
  frames : List (Frame place)
  deriving DecidableEq

namespace Nesting

variable {place : Type}

/-- File level, before anything is read. -/
def empty : Nesting place := ⟨.empty, []⟩

/-! ## The innermost body -/

/-- The scope of the innermost body, or of the file. -/
def scope (n : Nesting place) : Scope := (n.frames.head?.map Frame.scope).getD n.file

/-- The record of the innermost body; the file has none. -/
def record? (n : Nesting place) : Option TypeRecord := n.frames.head?.map Frame.record

/-- Where the next statement stands. -/
def level (n : Nesting place) : Level :=
  match n.frames with
  | [] => .file
  | ⟨.typeBody, _, _, _⟩ :: _ => .typeBody
  | ⟨.methodBody _, _, _, _⟩ :: _ => .methodBody

/-- Change the scope of the innermost body, or of the file. -/
def mapScope (f : Scope → Scope) (n : Nesting place) : Nesting place :=
  match n.frames with
  | [] => { n with file := f n.file }
  | frame :: outer => { n with frames := { frame with scope := f frame.scope } :: outer }

/-- Change the record of the innermost body. -/
def mapRecord (f : TypeRecord → TypeRecord) (n : Nesting place) : Nesting place :=
  match n.frames with
  | [] => n
  | frame :: outer => { n with frames := { frame with record := f frame.record } :: outer }

/-! ## Entering and leaving bodies -/

/-- Enter a body. -/
def push (n : Nesting place) (frame : Frame place) : Nesting place :=
  { n with frames := frame :: n.frames }

/-- Leave the innermost body, if there is one. -/
def pop? (n : Nesting place) : Option (Frame place × Nesting place) :=
  match n.frames with
  | [] => none
  | frame :: outer => some (frame, { n with frames := outer })

/-! ## Blocks of a method body -/

/-- A block is opened; only the blocks of a method body count. -/
def enterBlock (n : Nesting place) : Nesting place :=
  match n.frames with
  | ⟨.methodBody depth, scope, record, resume⟩ :: outer =>
    { n with frames := ⟨.methodBody (depth + 1), scope, record, resume⟩ :: outer }
  | _ => n

/-- A brace is closed.  Nothing is returned if it ends the innermost body
instead of a block in it. -/
def leaveBlock? (n : Nesting place) : Option (Nesting place) :=
  match n.frames with
  | ⟨.methodBody (depth + 1), scope, record, resume⟩ :: outer =>
    some { n with frames := ⟨.methodBody depth, scope, record, resume⟩ :: outer }
  | _ => none

/-! ## The enclosing type -/

/-- The record of the innermost type among some bodies. -/
def enclosingOf : List (Frame place) → Option TypeRecord
  | [] => none
  | ⟨.typeBody, _, record, _⟩ :: _ => some record
  | ⟨.methodBody _, _, _, _⟩ :: outer => enclosingOf outer

/-- Change the record of the innermost type among some bodies. -/
def mapEnclosingOf (f : TypeRecord → TypeRecord) : List (Frame place) → List (Frame place)
  | [] => []
  | ⟨.typeBody, scope, record, resume⟩ :: outer => ⟨.typeBody, scope, f record, resume⟩ :: outer
  | ⟨.methodBody depth, scope, record, resume⟩ :: outer =>
    ⟨.methodBody depth, scope, record, resume⟩ :: mapEnclosingOf f outer

/-- The record of the innermost type, inside whose methods reading may
stand. -/
def enclosing? (n : Nesting place) : Option TypeRecord := enclosingOf n.frames

/-- Change the record of the innermost type. -/
def mapEnclosing (f : TypeRecord → TypeRecord) (n : Nesting place) : Nesting place :=
  { n with frames := mapEnclosingOf f n.frames }

/-! ## Laws -/

@[simp] theorem pop?_push (n : Nesting place) (frame : Frame place) :
    (n.push frame).pop? = some (frame, n) := rfl

@[simp] theorem scope_push (n : Nesting place) (frame : Frame place) :
    (n.push frame).scope = frame.scope := rfl

@[simp] theorem record?_push (n : Nesting place) (frame : Frame place) :
    (n.push frame).record? = some frame.record := rfl

@[simp] theorem scope_mapScope (f : Scope → Scope) (n : Nesting place) :
    (n.mapScope f).scope = f n.scope := by
  obtain ⟨file, frames⟩ := n
  cases frames <;> rfl

@[simp] theorem scope_mapRecord (f : TypeRecord → TypeRecord) (n : Nesting place) :
    (n.mapRecord f).scope = n.scope := by
  obtain ⟨file, frames⟩ := n
  cases frames <;> rfl

@[simp] theorem scope_mapEnclosing (f : TypeRecord → TypeRecord) (n : Nesting place) :
    (n.mapEnclosing f).scope = n.scope := by
  obtain ⟨file, frames⟩ := n
  match frames with
  | [] => rfl
  | ⟨.typeBody, _, _, _⟩ :: _ => rfl
  | ⟨.methodBody _, _, _, _⟩ :: _ => rfl

@[simp] theorem scope_enterBlock (n : Nesting place) : n.enterBlock.scope = n.scope := by
  obtain ⟨file, frames⟩ := n
  match frames with
  | [] => rfl
  | ⟨.typeBody, _, _, _⟩ :: _ => rfl
  | ⟨.methodBody _, _, _, _⟩ :: _ => rfl

theorem scope_of_leaveBlock? {n m : Nesting place} (h : n.leaveBlock? = some m) :
    m.scope = n.scope := by
  obtain ⟨file, frames⟩ := n
  match frames with
  | [] => cases h
  | ⟨.typeBody, _, _, _⟩ :: _ => cases h
  | ⟨.methodBody 0, _, _, _⟩ :: _ => cases h
  | ⟨.methodBody (_ + 1), _, _, _⟩ :: _ => cases h; rfl

theorem enclosingOf_mapEnclosingOf (f : TypeRecord → TypeRecord) (frames : List (Frame place)) :
    enclosingOf (mapEnclosingOf f frames) = (enclosingOf frames).map f := by
  fun_induction enclosingOf frames with
  | case1 => rfl
  | case2 => rfl
  | case3 _ _ _ _ outer ih => simpa [mapEnclosingOf, enclosingOf] using ih

/-- After a change the enclosing type is the changed one. -/
@[simp] theorem enclosing?_mapEnclosing (f : TypeRecord → TypeRecord) (n : Nesting place) :
    (n.mapEnclosing f).enclosing? = n.enclosing?.map f :=
  enclosingOf_mapEnclosingOf f n.frames

/-- Closing a block undoes opening one. -/
theorem leaveBlock?_enterBlock {n : Nesting place} (h : n.level = .methodBody) :
    n.enterBlock.leaveBlock? = some n := by
  obtain ⟨file, frames⟩ := n
  cases frames with
  | nil => cases h
  | cons frame outer =>
    obtain ⟨kind, scope, record, resume⟩ := frame
    cases kind with
    | typeBody => cases h
    | methodBody depth => rfl

end Nesting

end JavaOutline
