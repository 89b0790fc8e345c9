import JavaOutline.Proofs.Grammar.Expressions
import JavaOutline.Proofs.Grammar.Statements

/-!
# JavaOutline.Proofs.Grammar.Blocks

Bodies of methods as they are written, and the variables that they declare.

1. a *simple statement* declares a variable, assigns to one, calls methods,
   returns, leaves a loop, or is a label;
2. a *block* is a list of statements in braces, with or without a head such
   as `if (…)`, `else`, `try` or `catch (…)`; an `if` with its alternatives
   is written as blocks one after the other;
3. a *local type* is a header with a body that may hold anything.

A body declares the variables of its statements and of the blocks in it, in
the order in which they are written; what is declared in heads, as
arguments or in local types is not among them (`Block.keptVariables`).  Some
expressions are misread when they are returned, and so are some headers of
local types (`Block.isPlain`); `Block.firstVariables` are declared before
the first of them.
-/

namespace JavaOutline

open Text OpenStatement

/-! ## Simple statements -/

/-- A declaration of one variable in the body of a method. -/
structure LocalVariable where
  isFinal : Bool
  type : WrittenType
  name : Name
  value : Option Expression

/-- The modifier `final`. -/
def finalModifier : Modifier := ⟨"final", by decide⟩

namespace LocalVariable

/-- The declaration without what the variable is set to. -/
def declaration (d : LocalVariable) : VariableDeclaration where
  modifiers := if d.isFinal then [finalModifier] else []
  type := d.type
  first := ⟨d.name, none⟩
  more := []

/-- The lexemes of a declaration before what the variable is set to. -/
def namedLexemes (d : LocalVariable) : List Lexeme :=
  modifierLexemes d.declaration.modifiers ++ (d.type.lexemes ++ [.word d.name.toWord])

/-- The lexemes of a declaration with its semicolon. -/
def lexemes (d : LocalVariable) : List Lexeme :=
  d.namedLexemes ++ match d.value with
    | none => [.mark ';']
    | some e => .mark '=' :: (e.lexemes ++ [.mark ';'])

/-- The variable that is declared. -/
def declared (d : LocalVariable) : Variable := ⟨d.name.text, some d.type.text, d.isFinal⟩

end LocalVariable

/-- The variables that are declared, as far as their names are kept. -/
def declaredVariables (keep : Name → Bool) (ds : List LocalVariable) : List Variable :=
  (ds.filter fun d => keep d.name).map LocalVariable.declared

/-- An argument list with the name that is called. -/
structure Call where
  name : QualifiedName
  arguments : Enclosed
  /-- What is called of what is returned. -/
  more : List (Name × Enclosed)

/-- What stands between parentheses, with them. -/
def Enclosed.group (e : Enclosed) : List Lexeme := .mark '(' :: (e.lexemes ++ [.mark ')'])

/-- The lexemes of calls with a dot before each. -/
def moreCalls : List (Name × Enclosed) → List Lexeme
  | [] => []
  | (n, e) :: more => .mark '.' :: .word n.toWord :: (e.group ++ moreCalls more)

/-- The lexemes of a call. -/
def Call.lexemes (c : Call) : List Lexeme :=
  c.name.lexemes ++ (c.arguments.group ++ moreCalls c.more)

/-- A label of a `switch`. -/
inductive SwitchLabel where
  | constant (q : QualifiedName)
  | literal (l : Literal)
  | otherwise

/-- The word `case`. -/
def caseWord : Word := ⟨"case", by decide⟩

/-- The word `default`. -/
def defaultWord : Word := ⟨"default", by decide⟩

/-- The word `break`. -/
def breakWord : Word := ⟨"break", by decide⟩

/-- The word `catch`. -/
def catchWord : Word := ⟨"catch", by decide⟩

/-- The lexemes of a label before its colon. -/
def SwitchLabel.lexemes : SwitchLabel → List Lexeme
  | constant q => .word caseWord :: q.lexemes
  | literal l => [.word caseWord, .literal l]
  | otherwise => [.word defaultWord]

/-- A statement without a block. -/
inductive SimpleStatement where
  | declaration (d : LocalVariable)
  | assignment (name : QualifiedName) (value : Expression)
  | call (c : Call)
  | result (e : Expression)
  | leave
  | label (l : SwitchLabel)

namespace SimpleStatement

/-- The lexemes of a statement with the mark that ends it. -/
def lexemes : SimpleStatement → List Lexeme
  | declaration d => d.lexemes
  | assignment name value => name.lexemes ++ .mark '=' :: (value.lexemes ++ [.mark ';'])
  | call c => c.lexemes ++ [.mark ';']
  | result e => .word returnWord :: (e.lexemes ++ [.mark ';'])
  | leave => [.word breakWord, .mark ';']
  | label l => l.lexemes ++ [.mark ':']

/-- The declaration that a statement is, if it is one. -/
def declarations : SimpleStatement → List LocalVariable
  | declaration d => [d]
  | _ => []

/-- Whether a statement that declares nothing is seen to declare nothing. -/
def isPlain : SimpleStatement → Bool
  | result e => e.isReturned
  | _ => true

end SimpleStatement

/-! ## Blocks -/

/-- The keywords that begin the head of a block. -/
def controlWords : List String :=
  ["do", "else", "finally", "for", "if", "switch", "synchronized", "try", "while"]

/-- A keyword that begins the head of a block. -/
structure ControlWord extends Word where
  isControl : controlWords.contains text = true

/-- What stands before the brace of a block. -/
inductive BlockHead where
  | bare
  /-- Keywords alone, such as `try`. -/
  | keyword (w : ControlWord)
  /-- Keywords and a condition, as in `else if (…)`. -/
  | guarded (w : ControlWord) (more : List ControlWord) (guard : Enclosed)
  | handler (exception : Enclosed)

/-- The lexemes of a head. -/
def BlockHead.lexemes : BlockHead → List Lexeme
  | bare => []
  | keyword w => [.word w.toWord]
  | guarded w more guard => .word w.toWord :: ((more.map fun v => .word v.toWord) ++ guard.group)
  | handler exception => .word catchWord :: exception.group

/-- Whether the header of a type in the body of a method is seen to be one:
it does not begin with a modifier that hides it. -/
def TypeHeading.isPlain (h : TypeHeading) : Bool :=
  !h.modifiers.head?.any fun m => isInert m.text

/-- The body of a local type. -/
structure LocalBody where
  lexemes : List Lexeme
  nests : nests (fun _ c => isMark c) [] lexemes = true

/-- The statements of a block, one after the other. -/
inductive Block where
  | nil
  | simple (s : SimpleStatement) (next : Block)
  | block (head : BlockHead) (inside next : Block)
  | type (h : TypeHeading) (body : LocalBody) (next : Block)

namespace Block

/-- The lexemes of a block without its braces. -/
def lexemes : Block → List Lexeme
  | nil => []
  | simple s next => s.lexemes ++ next.lexemes
  | block head inside next =>
    head.lexemes ++ .mark '\x7b' :: (inside.lexemes ++ .mark '\x7d' :: next.lexemes)
  | type h body next =>
    h.lexemes ++ .mark '\x7b' :: (body.lexemes ++ .mark '\x7d' :: next.lexemes)

/-- The declarations of a block and of the blocks in it, in their order. -/
def declarations : Block → List LocalVariable
  | nil => []
  | simple s next => s.declarations ++ next.declarations
  | block _ inside next => inside.declarations ++ next.declarations
  | type _ _ next => next.declarations

/-- The variables that are declared in a block, as far as their names are
kept. -/
def keptVariables (keep : Name → Bool) (b : Block) : List Variable :=
  declaredVariables keep b.declarations

/-- Whether what declares no variables of a block is seen to declare none:
what is returned can be returned, and the headers of local types are seen
to be such. -/
def isPlain : Block → Bool
  | nil => true
  | simple s next => s.isPlain && next.isPlain
  | block _ inside next => inside.isPlain && next.isPlain
  | type h _ next => h.isPlain && next.isPlain

/-- The declarations before the first statement that is misread. -/
def firstDeclarations : Block → List LocalVariable
  | nil => []
  | simple s next => if s.isPlain then s.declarations ++ next.firstDeclarations else []
  | block _ inside next =>
    inside.firstDeclarations ++ if inside.isPlain then next.firstDeclarations else []
  | type h _ next => if h.isPlain then next.firstDeclarations else []

/-- The variables that are declared before the first statement that is
misread, as far as their names are kept. -/
def firstVariables (keep : Name → Bool) (b : Block) : List Variable :=
  declaredVariables keep b.firstDeclarations

/-- The bodies around a block whose scope is at `path`, after the types in
it: the innermost type knows them. -/
def knownTypes {place : Type} (path : String) : Block → Nesting place → Nesting place
  | nil, n => n
  | simple _ next, n => next.knownTypes path n
  | block _ inside next, n => next.knownTypes path (inside.knownTypes path n)
  | type h _ next, n =>
    next.knownTypes path (n.mapEnclosing fun outer =>
      outer.addImport h.name.text (qualify path h.name.text))

end Block

/-! ## Braces are closed -/

theorem balanced_group (e : Enclosed) : Balanced e.group :=
  .mark (by decide) (e.balanced.append (.mark (c := ')') (by decide) .nil))

theorem QualifiedName.balanced (q : QualifiedName) : Balanced q.lexemes :=
  .word q.first.toWord (balanced_dotted q.more)

theorem LocalVariable.balanced (d : LocalVariable) : Balanced d.lexemes := by
  have hname : Balanced d.namedLexemes :=
    (balanced_modifiers _).append (d.type.balanced.append (.word d.name.toWord .nil))
  unfold LocalVariable.lexemes
  split
  · exact hname.append (.mark (by decide) .nil)
  · next e _ =>
      exact hname.append (.mark (by decide) (e.balanced.append (.mark (by decide) .nil)))

theorem Call.balanced (c : Call) : Balanced c.lexemes := by
  have hmore : ∀ calls, Balanced (moreCalls calls) := by
    intro calls
    induction calls with
    | nil => exact .nil
    | cons call calls ih =>
        exact .mark (by decide) (.word call.1.toWord ((balanced_group call.2).append ih))
  exact c.name.balanced.append ((balanced_group c.arguments).append (hmore c.more))

theorem SwitchLabel.balanced (l : SwitchLabel) : Balanced l.lexemes := by
  cases l with
  | constant q => exact .word caseWord q.balanced
  | literal l => exact .word caseWord (.literal l .nil)
  | otherwise => exact .word defaultWord .nil

theorem BlockHead.balanced (head : BlockHead) : Balanced head.lexemes := by
  have hwords : ∀ ws : List ControlWord, Balanced (ws.map fun w => Lexeme.word w.toWord) := by
    intro ws
    induction ws with
    | nil => exact .nil
    | cons w ws ih => exact .word w.toWord ih
  cases head with
  | bare => exact .nil
  | keyword w => exact .word w.toWord .nil
  | guarded w more guard => exact .word w.toWord ((hwords more).append (balanced_group guard))
  | handler exception => exact .word catchWord (balanced_group exception)

theorem SimpleStatement.balanced (s : SimpleStatement) : Balanced s.lexemes := by
  have hend : ∀ c ∈ innerMarks, Balanced [.mark c] := fun c hc => .mark hc .nil
  cases s with
  | declaration d => exact d.balanced
  | assignment name value =>
      exact name.balanced.append (.mark (by decide) (value.balanced.append (hend ';' (by decide))))
  | call c => exact c.balanced.append (hend ';' (by decide))
  | result e => exact .word returnWord (e.balanced.append (hend ';' (by decide)))
  | leave => exact .word breakWord (hend ';' (by decide))
  | label l => exact l.balanced.append (hend ':' (by decide))

theorem Block.balanced (b : Block) : Balanced b.lexemes := by
  induction b with
  | nil => exact .nil
  | simple s next ih => exact s.balanced.append ih
  | block head inside next hinside ih => exact head.balanced.append (.block hinside ih)
  | type h body next ih =>
      have hbody := balanced_of_nests body.nests fun _ _ h => h
      exact h.balanced.append (.block hbody ih)

end JavaOutline
