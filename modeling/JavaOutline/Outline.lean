import JavaOutline.Declaration.Reading
import JavaOutline.Statement.Scan

/-!
# JavaOutline.Outline

The outline of a text: the records of the types that it declares, in the
order in which their bodies end, so nested types come before the types
around them.

Statements are read one after the other.  The body of a type is read into
a record of its own, and so is the body of a method if its variables are
wanted; otherwise it is passed over.  A body ends at the first `}` that
closes none of its blocks, and reading goes on after the block that the
body was found in.
-/

namespace JavaOutline

/-- How far reading has come. -/
structure Progress where
  /-- Where the next statement stands. -/
  nesting : Nesting (List Char)
  /-- The records of the types whose bodies have ended. -/
  records : List TypeRecord

namespace Progress

/-- Nothing has been read. -/
def start : Progress := ⟨.empty, []⟩

/-! ## Clauses and members -/

/-- Change the scope of the innermost body. -/
def mapScope (f : Scope → Scope) (p : Progress) : Progress :=
  { p with nesting := p.nesting.mapScope f }

/-- Change the record of the innermost body. -/
def mapRecord (f : TypeRecord → TypeRecord) (p : Progress) : Progress :=
  { p with nesting := p.nesting.mapRecord f }

/-- The scope with an imported type under its simple name.  Imports on
demand, which end in `*`, and names without a dot change nothing. -/
def importType (full : String) (scope : Scope) : Scope :=
  match Text.cutLast '.' full.toList with
  | none => scope
  | some (_, short) =>
    if short = ['*'] then scope
    else { scope with imports := scope.imports.insert (String.ofList short) full }

/-- Apply a clause to the innermost body. -/
def apply (p : Progress) : Clause → Progress
  | .package path => p.mapScope fun scope => { scope with path := path }
  | .importOf full => p.mapScope (importType full)

/-- Add what is declared without a body to the innermost record.  A type
without a body declares nothing. -/
def declare (p : Progress) : Declaration → Progress
  | .nothing => p
  | .type _ => p
  | .fields members => p.mapRecord fun record => members.foldl TypeRecord.addField record
  | .method method => p.mapRecord fun record => record.addMethod method

/-! ## Bodies -/

/-- Enter the body of a type.  The type knows what the enclosing scope
knows, itself, and what the enclosing type knows by now; the enclosing
type learns the name, so its nested types see each other. -/
def openType (p : Progress) (header : TypeHeader) (resume : List Char) : Progress :=
  let path := qualify p.nesting.scope.path header.name
  let imports := p.nesting.scope.imports.insert header.name path
  let nesting := p.nesting.mapEnclosing fun outer => outer.addImport header.name path
  let own := (TypeRecord.start path header.kind).addImports imports
  let placed :=
    match nesting.enclosing? with
    | none => own
    | some outer => (own.withOuter outer.name).addImports outer.imports
  let record := { placed with
    superName := header.superName, interfaceNames := header.interfaceNames }
  { p with nesting := nesting.push ⟨.typeBody, ⟨path, imports⟩, record, resume⟩ }

/-- Leave the body of a type, whose record is complete. -/
def closeType (p : Progress) : Progress :=
  match p.nesting.pop? with
  | none => p
  | some (frame, outer) => ⟨outer, p.records ++ [frame.record]⟩

/-- Enter the body of a method. -/
def openMethod (p : Progress) (resume : List Char) : Progress :=
  let scope := p.nesting.scope
  let imports := (p.nesting.record?.map TypeRecord.imports).getD scope.imports
  { p with nesting := p.nesting.push (.ofMethod scope imports resume) }

/-- Leave the body of a method, and add the method with the variables
found there. -/
def closeMethod (p : Progress) (method : Method) : Progress :=
  match p.nesting.pop? with
  | none => p
  | some (frame, outer) =>
    let whole := { method with locals := frame.record.fieldVariables }
    mapRecord (fun record => record.addMethod whole) ⟨outer, p.records⟩

/-! ## Reading -/

/-- Whether the block of a statement is searched as a part of the method
body around it; the body of an anonymous class is not. -/
def entersBlock (p : Progress) (tokens : List String) : Bool :=
  p.nesting.level == .methodBody && tokens.head? != some "new"

/-- Read the statements of a text up to the end of the innermost body;
`withLocals` says whether the variables of method bodies are wanted. -/
def read (withLocals : Bool) (p : Progress) (text : List Char) : Progress :=
  match _ : scan text with
  | none => p
  | some (statement, rest) =>
    let reading := Reading.ofTokens p.nesting.level statement.tokens
    let q := reading.clauses.foldl apply p
    match _ : statement.ending with
    | .block body _ =>
      match reading.declaration, withLocals with
      | .type header, _ =>
        (((q.openType header rest).read withLocals body).closeType).read withLocals rest
      | .method method, true =>
        (((q.openMethod rest).read withLocals body).closeMethod method).read withLocals rest
      | declaration, _ =>
        let r := q.declare declaration
        if r.entersBlock statement.tokens then
          ({ r with nesting := r.nesting.enterBlock } : Progress).read withLocals body
        else r.read withLocals rest
    | .closeBrace =>
      let r := q.declare reading.declaration
      match r.nesting.leaveBlock? with
      | some nesting => ({ r with nesting } : Progress).read withLocals rest
      | none => r
    | _ => (q.declare reading.declaration).read withLocals rest
termination_by text.length
decreasing_by
  all_goals
    first
      | exact length_lt_of_scan ‹_›
      | exact length_body_lt_of_scan ‹_› ‹_›

end Progress

/-- The records of the types that a text declares, in the order in which
their bodies end. -/
def outline (withLocals : Bool) (text : String) : List TypeRecord :=
  (Progress.read withLocals .start text.toList).records

end JavaOutline
