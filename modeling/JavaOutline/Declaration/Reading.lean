import JavaOutline.Declaration.Members
import JavaOutline.Nesting

/-!
# JavaOutline.Declaration.Reading

What a statement says, seen from its tokens and from where it stands.

1. `package` and `import` take the next token, wherever they stand;
2. modifiers count for the member after them, and inert words and type
   parameters are passed over;
3. a keyword of a type makes the rest of the statement its header;
4. any other word begins a member, except at file level, where it is
   passed over;
5. in the body of a method a statement that begins with an inert word, a
   call, or a single token declares nothing.
-/

namespace JavaOutline

/-- A part of a statement that says how names are to be understood. -/
inductive Clause where
  | package (path : String)
  | importOf (full : String)
  deriving DecidableEq, Repr

/-- What a statement says. -/
structure Reading where
  clauses : List Clause
  declaration : Declaration
  deriving DecidableEq, Repr

namespace Reading

/-- A statement that says nothing. -/
def nothing : Reading := ⟨[], .nothing⟩

/-- A statement that only declares. -/
def declaring (declaration : Declaration) : Reading := ⟨[], declaration⟩

/-- Put clauses in front. -/
def after (clauses : List Clause) (r : Reading) : Reading := ⟨clauses ++ r.clauses, r.declaration⟩

/-- The member that the tokens after the modifiers declare; `alone` says
that there are no modifiers. -/
def member (level : Level) (m : Modifiers) (alone : Bool) (tokens : List String) : Declaration :=
  match tokens with
  | [token] => if alone && level == .typeBody then .fields (constants token) else .nothing
  | _ =>
    match m.declare tokens with
    | .method method => if level == .methodBody then .nothing else .method method
    | declaration => declaration

/-- What tokens say after some modifiers; `first` says that nothing has
been read before them. -/
def ofTokensAfter (level : Level) (m : Modifiers) (first : Bool) : List String → Reading
  | [] => nothing
  | token :: rest =>
    match Access.ofKeyword? token with
    | some access => ofTokensAfter level { m with access } false rest
    | none =>
      if token = "static" then ofTokensAfter level { m with isStatic := true } false rest
      else if token = "final" then ofTokensAfter level { m with isFinal := true } false rest
      else if token = "package" then
        (ofTokensAfter level m false rest.tail).after (rest.head?.map Clause.package).toList
      else if token = "import" then
        (ofTokensAfter level m false rest.tail).after (rest.head?.map Clause.importOf).toList
      else
        match TypeKind.ofKeyword? token with
        | some kind =>
          declaring (((TypeHeader.ofTokens? kind rest).map Declaration.type).getD .nothing)
        | none =>
          if isInert token then
            if level = .methodBody ∧ first then nothing else ofTokensAfter level m false rest
          else if token.toList.head? = some '<' then
            ofTokensAfter level m false (afterTypeParameters (unclosedAngles token) rest)
          else if level = .file then ofTokensAfter level m false rest
          else declaring (member level m first (token :: rest))
termination_by tokens => tokens.length
decreasing_by
  all_goals
    first
      | exact Nat.lt_succ_self _
      | exact Nat.lt_succ_of_le (length_afterTypeParameters_le ..)
      | simp only [List.length_cons, List.length_tail]; omega

/-- What a statement says. -/
def ofTokens (level : Level) (tokens : List String) : Reading :=
  ofTokensAfter level .absent true tokens

end Reading

end JavaOutline
