import JavaOutline.Proofs.Grammar.Headers
import JavaOutline.Proofs.Grammar.Methods

/-!
# JavaOutline.Proofs.Grammar.Bodies

Bodies of types and whole texts as they are written, and the records that
they declare.

1. a *body* is a list of fields, methods and nested types, before which an
   enum lists its constants;
2. a *compilation unit* is a package, imports and types;
3. the *records* of a body are those of the types in it, with what its
   place gives them: the path, the name of the type around, and what simple
   names mean.

`keep` says which names of variables are kept; what the readers keep is
`Name.isDeclared`.
-/

namespace JavaOutline

/-! ## Methods with their bodies -/

/-- A declaration in the body of a method; there an inert modifier in front
would hide it. -/
structure LocalDeclaration extends VariableDeclaration where
  plainly : ∀ x ∈ modifiers.head?, isInert x.text = false

/-- The lexemes of the declarations in the body of a method. -/
def localLexemes (ds : List LocalDeclaration) : List Lexeme := ds.flatMap fun d => d.lexemes

/-- The variables that are declared in the body of a method. -/
def localVariables (keep : Name → Bool) (ds : List LocalDeclaration) : List Variable :=
  ds.flatMap fun d => (d.members keep).map Member.toVariable

/-- A method or constructor.  The latter has a body. -/
structure MethodDeclaration where
  header : MethodHeader
  body : Option (List LocalDeclaration)
  complete : header.type = none → body ≠ none

namespace MethodDeclaration

/-- The lexemes of a method. -/
def lexemes (m : MethodDeclaration) : List Lexeme :=
  match m.body with
  | none => m.header.lexemes ++ [.mark ';']
  | some ds => m.header.lexemes ++ .mark '\x7b' :: (localLexemes ds ++ [.mark '\x7d'])

/-- The method that is declared; `withLocals` says whether the variables of
its body are wanted. -/
def method (withLocals : Bool) (keep : Name → Bool) (m : MethodDeclaration) : Method :=
  m.header.method (if withLocals then localVariables keep (m.body.getD []) else [])

end MethodDeclaration

/-! ## Bodies of types -/

/-- The constants at the beginning of the body of an enum. -/
structure Constants where
  names : List Name
  /-- Whether a semicolon stands after the constants even if nothing else
  does. -/
  semicolon : Bool

/-- The lexemes of names with a comma before each. -/
def moreNames (ns : List Name) : List Lexeme := ns.flatMap fun n => [.mark ',', .word n.toWord]

namespace Constants

/-- The lexemes of the names of constants. -/
def nameLexemes (c : Constants) : List Lexeme :=
  match c.names with
  | [] => []
  | n :: ns => .word n.toWord :: moreNames ns

/-- Whether a semicolon ends the constants; `last` says that no members
follow. -/
def isEnded (c : Constants) (last : Bool) : Bool := c.semicolon || !(last || c.names.isEmpty)

/-- The lexemes of constants. -/
def lexemes (c : Constants) (last : Bool) : List Lexeme :=
  c.nameLexemes ++ if c.isEnded last then [.mark ';'] else []

/-- The constants as members. -/
def fields (c : Constants) : List Member :=
  c.names.map fun n =>
    { name := n.text
      type := none
      isFinal := false
      access := .publicAccess
      isStatic := false }

end Constants

/-- The members in the body of a type, one after the other. -/
inductive Members where
  | nil
  | field (d : VariableDeclaration) (next : Members)
  | method (m : MethodDeclaration) (next : Members)
  | type (h : TypeHeading) (constants : Constants) (inside next : Members)

namespace Members

/-- Whether there are no members. -/
def isNil : Members → Bool
  | nil => true
  | _ => false

/-- The lexemes of members. -/
def lexemes : Members → List Lexeme
  | nil => []
  | field d next => d.lexemes ++ next.lexemes
  | method m next => m.lexemes ++ next.lexemes
  | type h constants inside next =>
    h.lexemes ++ .mark '\x7b' :: ((constants.lexemes inside.isNil ++ inside.lexemes) ++
      .mark '\x7d' :: next.lexemes)

/-- The fields among members, in their order. -/
def fields (keep : Name → Bool) : Members → List Member
  | nil => []
  | field d next => d.members keep ++ next.fields keep
  | method _ next => next.fields keep
  | type _ _ _ next => next.fields keep

/-- The methods among members, in their order. -/
def methods (withLocals : Bool) (keep : Name → Bool) : Members → List Method
  | nil => []
  | field _ next => next.methods withLocals keep
  | method m next => m.method withLocals keep :: next.methods withLocals keep
  | type _ _ _ next => next.methods withLocals keep

/-- The import table of a type at `path` with the types among its
members. -/
def table (path : String) : Members → ImportTable → ImportTable
  | nil, t => t
  | field _ next, t => next.table path t
  | method _ next, t => next.table path t
  | type h _ _ next, t => next.table path (t.insert h.name.text (qualify path h.name.text))

end Members

/-! ## Records -/

/-- Where types are declared. -/
structure Place where
  scope : Scope
  /-- The simple name and the import table of the type around. -/
  outer : Option (String × ImportTable)

namespace Place

/-- The full name of a type. -/
def fullName (q : Place) (name : String) : String := qualify q.scope.path name

/-- The scope inside a type: what is known around it, and the type. -/
def scopeInside (q : Place) (name : String) : Scope :=
  ⟨q.fullName name, q.scope.imports.insert name (q.fullName name)⟩

/-- The import table of a type before its members are read: that of its
scope, overlaid by that of the type around, which knows the type. -/
def tableInside (q : Place) (name : String) : ImportTable :=
  match q.outer with
  | none => (q.scopeInside name).imports
  | some (_, table) =>
    (q.scopeInside name).imports.overlay (table.insert name (q.fullName name))

/-- The place inside a type. -/
def inside (q : Place) (name : String) : Place :=
  ⟨q.scopeInside name, some (name, q.tableInside name)⟩

/-- The place after a type, which the type around knows by then. -/
def after (q : Place) (name : String) : Place :=
  { q with outer := q.outer.map fun o => (o.1, o.2.insert name (q.fullName name)) }

/-- The record of a type that is declared at a place. -/
def record (withLocals : Bool) (keep : Name → Bool) (q : Place) (h : TypeHeading)
    (constants : Constants) (members : Members) : TypeRecord where
  packagePath := q.scope.path
  name := h.name.text
  kind := h.kind
  superName := h.superType.map WrittenType.text
  outerName := q.outer.map Prod.fst
  interfaceNames := h.interfaces.map ClassType.text
  fields := constants.fields ++ members.fields keep
  methods := members.methods withLocals keep
  imports := members.table (q.fullName h.name.text) (q.tableInside h.name.text)

end Place

/-- The records of the types among members and inside of them: types come
after the types inside of them. -/
def Members.records (withLocals : Bool) (keep : Name → Bool) (q : Place) : Members → List TypeRecord
  | nil => []
  | field _ next => next.records withLocals keep q
  | method _ next => next.records withLocals keep q
  | type h constants inside next =>
    inside.records withLocals keep (q.inside h.name.text) ++
      (q.record withLocals keep h constants inside ::
        next.records withLocals keep (q.after h.name.text))

/-! ## Compilation units -/

/-- A type with its body. -/
structure TypeDeclaration where
  heading : TypeHeading
  constants : Constants
  inside : Members

/-- Types as members. -/
def Members.ofTypes : List TypeDeclaration → Members
  | [] => nil
  | t :: ts => type t.heading t.constants t.inside (ofTypes ts)

/-- The word `package`. -/
def packageWord : Word := ⟨"package", by decide⟩

/-- The word `import`. -/
def importWord : Word := ⟨"import", by decide⟩

/-- The lexemes of a clause: a keyword with a dotted name. -/
def clauseLexemes (keyword : Word) (q : QualifiedName) : List Lexeme :=
  .word keyword :: (q.lexemes ++ [.mark ';'])

/-- A whole text: a package, imports and types. -/
structure CompilationUnit where
  package : Option QualifiedName
  imports : List QualifiedName
  types : List TypeDeclaration

/-- A table with an imported type under its simple name.  Imports on
demand and names without a dot change nothing. -/
def QualifiedName.importInto (table : ImportTable) (q : QualifiedName) : ImportTable :=
  match q.more.getLast? with
  | none => table
  | some w => if w.text = "*" then table else table.insert w.text q.text

namespace CompilationUnit

/-- The lexemes of a text. -/
def lexemes (u : CompilationUnit) : List Lexeme :=
  u.package.toList.flatMap (clauseLexemes packageWord) ++
    (u.imports.flatMap (clauseLexemes importWord) ++ (Members.ofTypes u.types).lexemes)

/-- The scope of a text after its imports. -/
def scope (u : CompilationUnit) : Scope :=
  ⟨(u.package.map QualifiedName.text).getD "", u.imports.foldl QualifiedName.importInto .empty⟩

/-- The records of the types of a text. -/
def records (withLocals : Bool) (keep : Name → Bool) (u : CompilationUnit) : List TypeRecord :=
  (Members.ofTypes u.types).records withLocals keep ⟨u.scope, none⟩

end CompilationUnit

end JavaOutline
