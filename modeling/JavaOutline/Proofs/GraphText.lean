/-!
# JavaOutline.Proofs.GraphText

Reading graph descriptions.

1. a text is made of words, quoted texts, arrows and other marks, with blanks in
   between; in a quoted text a backslash takes the next character with it, so the text
   ends at the first quote that is not taken (`GraphText.step`);
2. a statement ends at a semicolon: it sets something for the whole graph or for all
   nodes, or it is a node or an edge with attributes (`GraphText.statement?`);
3. a description is a name and its statements in braces (`GraphText.read?`).

`GraphText.Spells` says that a text which begins and ends between tokens is made of
some tokens.  Such texts can stand one after the other (`Spells.append`), so a
description is read line by line, and its statements one by one
(`GraphText.statementsFrom_flatMap`).
-/

namespace JavaOutline

namespace GraphText

/-! ## Tokens -/

/-- What a description is made of. -/
inductive Token where
  | word (chars : List Char)
  /-- What stands between two quotes, with its backslashes. -/
  | quoted (chars : List Char)
  | arrow
  | mark (c : Char)
  deriving DecidableEq, Repr

/-- Where in a token a text has come to. -/
inductive Mode where
  | between
  | inWord (chars : List Char)
  | inQuotes (chars : List Char)
  /-- Behind a backslash in quotes. -/
  | escaped (chars : List Char)
  | afterDash
  deriving DecidableEq, Repr

/-- Whether a character belongs to words. -/
def isWordChar (c : Char) : Bool := c.isAlphanum || c == '_'

/-- What a character that stands between two tokens begins. -/
def start (c : Char) : List Token × Mode :=
  if c.isWhitespace then ([], .between)
  else if isWordChar c then ([], .inWord [c])
  else if c = '"' then ([], .inQuotes [])
  else if c = '-' then ([], .afterDash)
  else ([.mark c], .between)

/-- The tokens that one more character finishes, and where it leads. -/
def step : Mode → Char → List Token × Mode
  | .between, c => start c
  | .inWord chars, c =>
    if isWordChar c then ([], .inWord (chars ++ [c]))
    else (.word chars :: (start c).1, (start c).2)
  | .inQuotes chars, c =>
    if c = '\\' then ([], .escaped chars)
    else if c = '"' then ([.quoted chars], .between)
    else ([], .inQuotes (chars ++ [c]))
  | .escaped chars, c => ([], .inQuotes (chars ++ ['\\', c]))
  | .afterDash, c =>
    if c = '>' then ([.arrow], .between) else (.mark '-' :: (start c).1, (start c).2)

/-- The tokens that a text finishes, and where it leads. -/
def run (mode : Mode) : List Char → List Token × Mode
  | [] => ([], mode)
  | c :: rest =>
    ((step mode c).1 ++ (run (step mode c).2 rest).1, (run (step mode c).2 rest).2)

/-- The tokens of a text, which must not end within a token. -/
def tokens? (text : String) : Option (List Token) :=
  match run .between text.toList with
  | (tokens, .between) => some tokens
  | _ => none

/-! ## Statements -/

/-- A statement of a description. -/
inductive Statement where
  | setting (name value : String)
  /-- Attributes of all nodes that follow. -/
  | allNodes (attributes : List (String × String))
  | node (name : String) (attributes : List (String × String))
  | edge (source target : String) (attributes : List (String × String))
  deriving DecidableEq, Repr

/-- The text that a token stands for; of a quoted text its escapes are kept. -/
def Token.text? : Token → Option String
  | .word chars => some (String.ofList chars)
  | .quoted chars => some (String.ofList chars)
  | _ => none

/-- Attributes behind an opening bracket, separated by commas. -/
def attributes? : List Token → Option (List (String × String))
  | [.word name, .mark '=', value, .mark ']'] =>
    value.text?.map fun text => [(String.ofList name, text)]
  | .word name :: .mark '=' :: value :: .mark ',' :: rest => do
    some ((String.ofList name, ← value.text?) :: (← attributes? rest))
  | _ => none

/-- The statement that some tokens make up. -/
def statement? : List Token → Option Statement
  | [.word name, .mark '=', value] => value.text?.map (.setting (String.ofList name))
  | .word name :: .mark '[' :: rest =>
    (attributes? rest).map fun attributes =>
      if String.ofList name = "node" then .allNodes attributes
      else .node (String.ofList name) attributes
  | .word source :: .arrow :: .word target :: .mark '[' :: rest =>
    (attributes? rest).map (.edge (String.ofList source) (String.ofList target))
  | _ => none

/-- Statements up to the closing brace that ends a description; `begun` are the tokens
of the statement that has begun. -/
def statementsFrom (begun : List Token) : List Token → Option (List Statement)
  | [] => none
  | token :: rest =>
    if token = .mark ';' then do
      some ((← statement? begun) :: (← statementsFrom [] rest))
    else if token = .mark '\x7d' ∧ rest = [] then
      if begun = [] then some [] else none
    else statementsFrom (begun ++ [token]) rest

/-- A graph with its statements. -/
structure Graph where
  name : String
  statements : List Statement
  deriving DecidableEq, Repr

/-- Read the description of a directed graph. -/
def read? (text : String) : Option Graph := do
  match ← tokens? text with
  | .word keyword :: .word name :: .mark '\x7b' :: rest =>
    if String.ofList keyword = "digraph" then
      some ⟨String.ofList name, ← statementsFrom [] rest⟩
    else none
  | _ => none

/-! ## Texts one after the other -/

variable {mode middle last : Mode} {text more : List Char} {tokens others : List Token}

theorem run_append (mode : Mode) (text more : List Char) :
    run mode (text ++ more) =
      ((run mode text).1 ++ (run (run mode text).2 more).1, (run (run mode text).2 more).2) := by
  induction text generalizing mode with
  | nil => rfl
  | cons c text ih => simp only [List.cons_append, run, ih, List.append_assoc]

/-- A text read on from where another has led. -/
theorem run_append_of_eq (h : run mode text = (tokens, middle))
    (hmore : run middle more = (others, last)) :
    run mode (text ++ more) = (tokens ++ others, last) := by
  rw [run_append, h, hmore]

/-- Characters of words go on with a word. -/
theorem run_word (chars : List Char) (h : ∀ c ∈ text, isWordChar c = true) :
    run (.inWord chars) text = ([], .inWord (chars ++ text)) := by
  induction text generalizing chars with
  | nil => simp [run]
  | cons c text ih =>
    obtain ⟨hc, htext⟩ := List.forall_mem_cons.1 h
    simp [run, step, hc, ih (chars ++ [c]) htext]

/-- Whether a text that begins and ends between tokens is made of some tokens. -/
def Spells (text : String) (tokens : List Token) : Prop :=
  run .between text.toList = (tokens, .between)

theorem Spells.append {text more : String} (h : Spells text tokens) (hmore : Spells more others) :
    Spells (text ++ more) (tokens ++ others) := by
  rw [Spells, String.toList_append]
  exact run_append_of_eq h hmore

theorem Spells.append_blank {text more : String} (h : Spells text tokens)
    (hmore : Spells more []) : Spells (text ++ more) tokens := by
  simpa using h.append hmore

theorem spells_empty : Spells "" [] := rfl

/-- Texts one after the other are made of their tokens one after the other. -/
theorem spells_join {α : Type} {f : α → String} {g : α → List Token} {items : List α}
    (h : ∀ a ∈ items, Spells (f a) (g a)) :
    Spells (String.join (items.map f)) (items.flatMap g) := by
  induction items with
  | nil => exact spells_empty
  | cons a items ih =>
    obtain ⟨ha, hitems⟩ := List.forall_mem_cons.1 h
    rw [List.map_cons, List.flatMap_cons, String.join_cons]
    exact ha.append (ih hitems)

theorem tokens?_of_spells {text : String} (h : Spells text tokens) :
    tokens? text = some tokens := by
  rw [tokens?, h]

/-! ## Statements one after the other -/

/-- A statement reaches to its semicolon. -/
theorem statementsFrom_append (begun : List Token) (h : .mark ';' ∉ tokens)
    (rest : List Token) :
    statementsFrom begun (tokens ++ .mark ';' :: rest) =
      (statement? (begun ++ tokens)).bind fun statement =>
        (statementsFrom [] rest).map (statement :: ·) := by
  induction tokens generalizing begun with
  | nil =>
    rw [List.nil_append, List.append_nil, statementsFrom, if_pos rfl]
    cases statement? begun <;> cases statementsFrom [] rest <;> rfl
  | cons token tokens ih =>
    rw [List.mem_cons, not_or] at h
    rw [List.cons_append, statementsFrom, if_neg (Ne.symm h.1), if_neg (by simp), ih _ h.2]
    simp

/-- Statements are read one by one. -/
theorem statementsFrom_flatMap {α : Type} {f : α → List Token} {g : α → Statement}
    {items : List α} (h : ∀ a ∈ items, .mark ';' ∉ f a ∧ statement? (f a) = some (g a))
    (rest : List Token) :
    statementsFrom [] (items.flatMap (fun a => f a ++ [.mark ';']) ++ rest) =
      (statementsFrom [] rest).map (items.map g ++ ·) := by
  induction items with
  | nil => simp
  | cons a items ih =>
    obtain ⟨⟨hmark, hstatement⟩, hitems⟩ := List.forall_mem_cons.1 h
    have hlist : (a :: items).flatMap (fun a => f a ++ [.mark ';']) ++ rest =
        f a ++ .mark ';' :: (items.flatMap (fun a => f a ++ [.mark ';']) ++ rest) := by simp
    rw [hlist, statementsFrom_append _ hmark, List.nil_append, hstatement, Option.bind_some,
      ih hitems, Option.map_map]
    rfl

end GraphText

end JavaOutline
