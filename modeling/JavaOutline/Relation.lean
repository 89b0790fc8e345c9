import JavaOutline.Resolution

/-!
# JavaOutline.Relation

The relations between registered types, as a class diagram draws them.
A record refers to the types that it names: its super type, its
interfaces, the type around it, and the types of its fields, methods,
parameters and local variables.  Each reference that means a registered
type is a relation of some kind.  Between two types in one direction only
the strongest kind is kept, where the pair is first referred to: a
`RelationSet` holds the relations with an index from pairs of names to
positions, and one that is already there is strengthened in its place.
-/

namespace JavaOutline

/-! ## Kinds -/

/-- What a relation says, from the weakest to the strongest. -/
inductive Relation.Kind where
  /-- The type uses the target in a method, or lies inside it. -/
  | dependency
  /-- The type has a field of the target. -/
  | association
  /-- The type implements the target. -/
  | realization
  /-- The type extends the target. -/
  | generalization
  deriving DecidableEq, Repr, Inhabited

namespace Relation.Kind

/-- The name of a kind. -/
def name : Relation.Kind → String
  | .dependency => "dependency"
  | .association => "association"
  | .realization => "realization"
  | .generalization => "generalization"

/-- All kinds, from the weakest to the strongest. -/
def all : List Relation.Kind := [.dependency, .association, .realization, .generalization]

/-- The kind of a name. -/
def ofName? (name : String) : Option Relation.Kind := all.find? fun kind => kind.name == name

/-- The strength of a kind. -/
def strength : Relation.Kind → Nat
  | .dependency => 0
  | .association => 1
  | .realization => 2
  | .generalization => 3

/-- The stronger of two kinds. -/
def stronger (a b : Relation.Kind) : Relation.Kind := if a.strength < b.strength then b else a

@[simp] theorem ofName?_name (kind : Relation.Kind) : ofName? kind.name = some kind := by
  cases kind <;> rfl

/-- No two kinds are equally strong. -/
theorem eq_of_strength_eq {a b : Relation.Kind} (h : a.strength = b.strength) : a = b := by
  cases a <;> cases b <;> first | rfl | cases h

theorem strength_stronger (a b : Relation.Kind) :
    (stronger a b).strength = max a.strength b.strength := by
  cases a <;> cases b <;> rfl

end Relation.Kind

/-- A relation from one registered type to another, by full names. -/
structure Relation where
  kind : Relation.Kind
  source : String
  target : String
  deriving DecidableEq, Repr, Inhabited

namespace Relation

/-- The full names of the types that a relation leads from and to. -/
def ends (x : Relation) : String × String := (x.source, x.target)

/-- A relation that has become as strong as a new kind. -/
def strengthen (x : Relation) (kind : Kind) : Relation := { x with kind := x.kind.stronger kind }

@[simp] theorem ends_strengthen (x : Relation) (kind : Kind) :
    (x.strengthen kind).ends = x.ends := rfl

/-- The order in which an index holds the ends of relations. -/
def compareEnds : String × String → String × String → Ordering :=
  compareLex (compareOn Prod.fst) (compareOn Prod.snd)

instance : Std.TransCmp compareEnds :=
  inferInstanceAs (Std.TransCmp (compareLex (compareOn Prod.fst) (compareOn Prod.snd)))

theorem compareEnds_eq_iff {a b : String × String} : compareEnds a b = .eq ↔ a = b := by
  obtain ⟨a₁, a₂⟩ := a
  obtain ⟨b₁, b₂⟩ := b
  simp [compareEnds, compareLex_eq_eq, compareOn]

end Relation

/-! ## One relation for each pair -/

/-- Relations in the order in which their ends came first, and where each is. -/
structure RelationSet where
  relations : Array Relation
  index : Std.TreeMap (String × String) Nat Relation.compareEnds

namespace RelationSet

/-- The set without relations. -/
def empty : RelationSet := ⟨#[], ∅⟩

/-- The position of the relation with two ends. -/
def position? (s : RelationSet) (ends : String × String) : Option Nat := s.index[ends]?

/-- The relations in their order. -/
def toList (s : RelationSet) : List Relation := s.relations.toList

/-- Add a relation: one with the same ends keeps its place and becomes the
stronger of the two. -/
def add (s : RelationSet) (new : Relation) : RelationSet :=
  match s.position? new.ends with
  | some i => { s with relations := s.relations.modify i (·.strengthen new.kind) }
  | none => ⟨s.relations.push new, s.index.insert new.ends s.relations.size⟩

/-- Whether a set says the truth: each position in the index is that of the
relation with the ends, and each relation is in the index. -/
def Valid (s : RelationSet) : Prop := Located Relation.ends s.relations s.position?

/-- The set without relations is valid. -/
theorem valid_empty : empty.Valid := Located.empty fun ends => by simp [empty, position?]

/-- A relation whose ends are met again becomes stronger. -/
theorem add_of_position? {s : RelationSet} {new : Relation} {i : Nat}
    (h : s.position? new.ends = some i) :
    s.add new = { s with relations := s.relations.modify i (·.strengthen new.kind) } := by
  rw [add, h]

/-- A relation whose ends are new comes last. -/
theorem add_of_position?_eq_none {s : RelationSet} {new : Relation}
    (h : s.position? new.ends = none) :
    s.add new = ⟨s.relations.push new, s.index.insert new.ends s.relations.size⟩ := by
  rw [add, h]

/-- Adding a relation keeps a set valid. -/
theorem Valid.add {s : RelationSet} (h : s.Valid) (new : Relation) : (s.add new).Valid := by
  cases hposition : s.position? new.ends with
  | some i =>
    rw [add_of_position? hposition]
    exact Located.modify h (fun x => x.ends_strengthen new.kind) i
  | none =>
    rw [add_of_position?_eq_none hposition]
    refine Located.push h hposition fun ends => ?_
    simp [position?, Std.TreeMap.getElem?_insert, Relation.compareEnds_eq_iff]

end RelationSet

/-! ## References -/

namespace Registry

/-- The types that a method names: its own, and those of its parameters
and local variables. -/
def typesOf (m : Method) : List (Option String) :=
  m.type :: (m.parameters.map Variable.type ++ m.locals.map Variable.type)

/-- The registered types that a record refers to, in the order super type,
interfaces, type around it, fields, methods. -/
def references (r : Registry) (t : TypeRecord) : List (Relation.Kind × TypeRecord) :=
  (r.super? t).toList.map (Relation.Kind.generalization, ·) ++
    (r.interfaces t).map (Relation.Kind.realization, ·) ++
    (r.outer? t).toList.map (Relation.Kind.dependency, ·) ++
    (t.fields.filterMap fun f => r.resolveOptional? t f.type).map (Relation.Kind.association, ·) ++
    ((t.methods.flatMap typesOf).filterMap (r.resolveOptional? t)).map (Relation.Kind.dependency, ·)

/-- All references of the records, each as a relation of its own, in the
order in which going through the records meets them. -/
def mentions (r : Registry) : List Relation :=
  r.toList.flatMap fun t => (r.references t).map fun e => ⟨e.1, t.fullName, e.2.fullName⟩

/-- The relations between the records of a registry. -/
def relations (r : Registry) : List Relation := (r.mentions.foldl RelationSet.add .empty).toList

end Registry

end JavaOutline
