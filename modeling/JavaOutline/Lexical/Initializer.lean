import JavaOutline.Lexical.Skip

/-!
# JavaOutline.Lexical.Initializer

Passing over the expression after `=`.  It ends at a `;` or `,` outside
brackets, braces and parentheses; a `,` inside type arguments, as in
`new Index<Key, Row>()`, does not end it.  Type arguments are told from
comparisons by nothing but the number of angle brackets, of which more
closing than opening ones count as none.
-/

namespace JavaOutline

/-- How many brackets of each kind are open.  A closing bracket without
an opening one makes the count negative.  The counts are of any size; 32
bits hold them in texts of fewer than `2 ^ 31` characters. -/
structure OpenBrackets where
  square : Int
  curly : Int
  round : Int
  angle : Nat
  deriving DecidableEq, Repr

namespace OpenBrackets

/-- No bracket is open. -/
def none : OpenBrackets := ⟨0, 0, 0, 0⟩

/-- The counts after one more character. -/
def after (o : OpenBrackets) (c : Char) : OpenBrackets :=
  match c with
  | '[' => { o with square := o.square + 1 }
  | ']' => { o with square := o.square - 1 }
  | '{' => { o with curly := o.curly + 1 }
  | '}' => { o with curly := o.curly - 1 }
  | '(' => { o with round := o.round + 1 }
  | ')' => { o with round := o.round - 1 }
  | '<' => { o with angle := o.angle + 1 }
  | '>' => { o with angle := o.angle - 1 }
  | _ => o

/-- Outside brackets, braces and parentheses. -/
def isOutside (o : OpenBrackets) : Bool := o.square == 0 && o.curly == 0 && o.round == 0

end OpenBrackets

/-- What ends an initializer, with the text from there on. -/
inductive InitializerEnd where
  /-- A `,`, which the text begins with. -/
  | comma (text : List Char)
  /-- A `;`, after which the text begins. -/
  | semicolon (rest : List Char)
  | endOfText
  deriving DecidableEq, Repr

/-- The end of an initializer of which some brackets are open. -/
def initializerEnd (o : OpenBrackets) : List Char → InitializerEnd
  | [] => .endOfText
  | c :: rest =>
    if c = '/' then initializerEnd o (afterSlash rest)
    else if isQuote c then initializerEnd o (afterQuote c rest)
    else if c = ';' ∧ o.isOutside then .semicolon rest
    else if c = ',' ∧ o.isOutside ∧ o.angle = 0 then .comma (c :: rest)
    else initializerEnd (o.after c) rest
termination_by text => text.length
decreasing_by
  · exact Nat.lt_succ_of_le (length_afterSlash_le rest)
  · exact Nat.lt_succ_of_le (length_afterQuote_le c rest)
  · exact Nat.lt_succ_self _

theorem length_le_of_initializerEnd_eq_comma {o : OpenBrackets} {text rest : List Char}
    (h : initializerEnd o text = .comma rest) : rest.length ≤ text.length := by
  fun_induction initializerEnd o text with
  | case1 => cases h
  | case2 o rest ih => exact Nat.le_succ_of_le (Nat.le_trans (ih h) (length_afterSlash_le _))
  | case3 o c rest _ _ ih =>
    exact Nat.le_succ_of_le (Nat.le_trans (ih h) (length_afterQuote_le c _))
  | case4 => cases h
  | case5 => cases h; exact Nat.le_refl _
  | case6 => rename_i ih; exact Nat.le_succ_of_le (ih h)

theorem length_lt_of_initializerEnd_eq_semicolon {o : OpenBrackets} {text rest : List Char}
    (h : initializerEnd o text = .semicolon rest) : rest.length < text.length := by
  fun_induction initializerEnd o text with
  | case1 => cases h
  | case2 o rest ih =>
    exact Nat.lt_succ_of_lt (Nat.lt_of_lt_of_le (ih h) (length_afterSlash_le _))
  | case3 o c rest _ _ ih =>
    exact Nat.lt_succ_of_lt (Nat.lt_of_lt_of_le (ih h) (length_afterQuote_le c _))
  | case4 => cases h; exact Nat.lt_succ_self _
  | case5 => cases h
  | case6 => rename_i ih; exact Nat.lt_succ_of_lt (ih h)

end JavaOutline
