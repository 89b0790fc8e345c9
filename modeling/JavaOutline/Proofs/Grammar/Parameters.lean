import JavaOutline.Proofs.Grammar.Methods

/-!
# JavaOutline.Proofs.Grammar.Parameters

Lists of parameters as they may be written: a parameter may have array
brackets after its name, or dots before it.  Two things go wrong:

1. a comma that comes right behind the brackets of a name begins a token of
   its own, in front of the next parameter;
2. dots after a type that ends in a bracket go to the name.

The tokens of a list are `formalTokens` (`read_formals`), and everything else
is understood as it is written (`parameters_formalTokens_iff`).
-/

namespace JavaOutline

open Text OpenStatement

/-! ## Parameters -/

/-- How the name of a parameter is written. -/
inductive ParameterForm where
  /-- The name and pairs of array brackets after it. -/
  | named (dimensions : Nat)
  /-- Three dots and the name. -/
  | variableArguments

/-- A parameter as it may be written. -/
structure FormalParameter where
  isFinal : Bool
  type : WrittenType
  name : Name
  form : ParameterForm

namespace FormalParameter

/-- The dots before the name. -/
def dots (p : FormalParameter) : List Lexeme :=
  match p.form with
  | .named _ => []
  | .variableArguments => [.mark '.', .mark '.', .mark '.']

/-- The number of pairs of array brackets after the name. -/
def dimensions (p : FormalParameter) : Nat :=
  match p.form with
  | .named n => n
  | .variableArguments => 0

/-- The lexemes of a parameter up to its name. -/
def lexemesToName (p : FormalParameter) : List Lexeme :=
  (if p.isFinal then [.word finalWord] else []) ++
    (p.type.lexemes ++ (p.dots ++ [.word p.name.toWord]))

/-- The lexemes of a parameter. -/
def lexemes (p : FormalParameter) : List Lexeme := p.lexemesToName ++ arrayBrackets p.dimensions

/-- The variable that a parameter declares: what belongs to the name counts
for the type. -/
def declared (p : FormalParameter) : Variable where
  name := p.name.text
  type := some (p.type.text ++ written (p.dots ++ arrayBrackets p.dimensions))
  isFinal := p.isFinal

/-- Whether the dots of a parameter stay with its type. -/
def dotsStay (p : FormalParameter) : Bool := p.dots.isEmpty || !p.type.isClosed

end FormalParameter

/-- The lexemes of parameters with a comma between any two. -/
def formalLexemes : List FormalParameter → List Lexeme
  | [] => []
  | [p] => p.lexemes
  | p :: q :: ps => p.lexemes ++ .mark ',' :: formalLexemes (q :: ps)

/-! ## Layout -/

/-- Whether no comma comes right behind the brackets of a name. -/
def commasApart : List FormalParameter → List Char → Bool
  | p :: q :: ps, text =>
    !(p.dimensions != 0 && (past p.lexemes text).head? == some ',') &&
      commasApart (q :: ps) (past (p.lexemes ++ [.mark ',']) text)
  | _, _ => true

/-- Whether a comma comes right behind the brackets of a parameter. -/
def FormalParameter.touchesComma (p : FormalParameter) (text : List Char) : Bool :=
  p.dimensions != 0 && (past p.lexemes text).head? == some ','

/-! ## Up to the name -/

/-- What has been read before a parameter: whole tokens, or a comma that has
begun a token. -/
def Before (pending : Bool) (s k : OpenStatement) (text : List Char) : Prop :=
  if pending then k.current = "" ∧ s = { k with current := "," } else Stands s k text

/-- What comes before the first word of a parameter, as tokens and as the
beginning of its token: a comma that has begun a token is a token of its own if
a blank follows. -/
def front (pending : Bool) (text : List Char) : List String × String :=
  if pending then if text.head?.any isBlank then ([","], "") else ([], ",") else ([], "")

theorem front_eq_or (pending : Bool) (text : List Char) :
    (front pending text).2 = "" ∨ (front pending text).2 = "," := by
  rw [front]
  split
  · split
    · exact .inl rfl
    · exact .inr rfl
  · exact .inl rfl

theorem Before.read_word {pending : Bool} {s k : OpenStatement} {w : Word} {ls : List Lexeme}
    {text rest : List Char} (h : Before pending s k text)
    (hlaid : Laid (.word w :: ls) text rest) : ∃ after, (Lexeme.word w).Fits after ∧
      Laid ls after rest ∧ s.read text = (({ k.takeAll (front pending text).1 with
        current := (front pending text).2 } : OpenStatement).extend w.text).read after := by
  cases pending with
  | false =>
      have hs : Stands s k text := h
      obtain ⟨after, hfits, hls, hread⟩ := hs.read_word hlaid
      refine ⟨after, hfits, hls, ?_⟩
      rw [hread]
      simp [front, takeAll, ← hs.current_eq]
  | true =>
      obtain ⟨hk, rfl⟩ := h
      have hlaid' := hlaid
      obtain ⟨run, after, hrun, rfl, hfits, hls⟩ := hlaid'
      cases run with
      | nil =>
          obtain ⟨c, cs, hchars, hblank⟩ := hfits.exists_cons
          have hfront : front true ([] ++ ((Lexeme.word w).chars ++ after)) = ([], ",") := by
            simp [front, hchars, hblank]
          refine ⟨after, hfits, hls, ?_⟩
          rw [hfront, List.nil_append, Lexeme.chars, read_word_append]
          simp [takeAll]
      | cons b run =>
          have hb : isBlank b = true := hrun b List.mem_cons_self
          have hapart : Apart (b :: run ++ ((Lexeme.word w).chars ++ after)) := by
            rintro d ⟨⟩
            exact ⟨by simp [isPlain, hb], isQuote_eq_false_of_isBlank hb⟩
          have hstands : Stands { k with current := "," } (k.take ",") _ :=
            ⟨by simp [endToken, atAnnotation, take, hk], by simp [ atAnnotation], .inr hapart⟩
          obtain ⟨after', hfits', hls', hread⟩ := hstands.read_word hlaid
          refine ⟨after', hfits', hls', ?_⟩
          rw [hread]
          simp [front, hb, takeAll, take, hk, extend]

/-! ### Types and names -/

namespace FormalParameter

/-- The tokens that have ended where the name of a parameter is read, `pre`
coming before the type. -/
def ended (p : FormalParameter) (pre : String) : List String :=
  if p.dotsStay && !p.dots.isEmpty then [] else [pre ++ p.type.text]

/-- The token of the name so far. -/
def opened (p : FormalParameter) (pre : String) : String :=
  (if p.dotsStay && !p.dots.isEmpty then pre ++ p.type.text else "") ++
    (written p.dots ++ p.name.text)

/-- The tokens that have ended where the name of a parameter is read, `pre`
coming before the whole parameter. -/
def tokensBefore (p : FormalParameter) (pre : String) : List String :=
  if p.isFinal then (pre ++ "final") :: p.ended "" else p.ended pre

/-- The token of the name so far, `pre` coming before the whole parameter. -/
def nameToken (p : FormalParameter) (pre : String) : String :=
  p.opened (if p.isFinal then "" else pre)

/-- The tokens of a parameter, `pre` coming before it. -/
def tokens (p : FormalParameter) (pre : String) : List String :=
  p.tokensBefore pre ++ [p.nameToken pre ++ written (arrayBrackets p.dimensions)]

/-- The tokens of a parameter where `text` begins with it, and of a comma that
has begun a token. -/
def tokensFrom (p : FormalParameter) (pending : Bool) (text : List Char) : List String :=
  (front pending text).1 ++ p.tokens (front pending text).2

end FormalParameter

variable {k : OpenStatement} {more : List Lexeme} {text rest : List Char}

/-- Dots after a type go on with its token; after a bracket they begin the
token of the name. -/
theorem read_dots {s : OpenStatement} (w : Word)
    (hlaid : Laid (.mark '.' :: .mark '.' :: .mark '.' :: .word w :: more) text rest) :
    ∃ after, (Lexeme.word w).Fits after ∧ Laid more after rest ∧
      s.read text = (s.extend ("..." ++ w.text)).read after := by
  have hcount : ∀ u : OpenStatement, u.countAngle '.' = u := fun _ => rfl
  have hpush : ∀ u : OpenStatement, u.push '.' = u.extend "." := fun u => push_eq_extend u '.'
  have hjoint : ∀ (u : OpenStatement) (tail : List Char),
      u.boundary '.' tail = (u.extend ".", skipBlanks tail) := by
    intro u tail
    rw [boundary, if_pos (by decide), joint]
    dsimp only
    rw [if_neg (by simp), if_pos (by simp [joins, closesToken]), hcount, hpush]
  have hdot : ∀ (u : OpenStatement) (l : Lexeme) (ls : List Lexeme) (t : List Char),
      u.current ≠ "" → Laid (.mark '.' :: l :: ls) t rest → ∃ mid, Laid (l :: ls) mid rest ∧
        skipBlanks mid = mid ∧ u.read t = (u.extend ".").read mid := by
    intro u l ls t hcurrent ht
    obtain ⟨mid, hmid, htight, hread⟩ := read_joined hcurrent (by decide) (by simp)
      (by simp [joins, closesToken]) ht
    exact ⟨mid, hmid, htight, by rw [hread, hcount, hpush]⟩
  -- The first dot may come between two tokens.
  obtain ⟨first, hfirst, hread⟩ : ∃ mid, Laid (.mark '.' :: .mark '.' :: .word w :: more) mid rest ∧
      s.read text = (s.extend ".").read mid := by
    obtain ⟨run, after, hrun, rfl, hfits, hls⟩ := hlaid
    rw [Lexeme.chars, List.singleton_append]
    by_cases hrunEmpty : run = []
    · subst hrunEmpty
      by_cases hcurrent : s.current = ""
      · refine ⟨after, hls, ?_⟩
        rw [List.nil_append, read_cons, step, if_neg (by decide), if_neg (by simp [hcurrent]),
          if_neg (by decide), if_neg (by decide), if_neg (by decide), if_neg (by decide),
          if_neg (by decide), hpush]
      · refine ⟨skipBlanks after, hls.of_skipBlanks, ?_⟩
        rw [List.nil_append, read_interrupting hcurrent (by decide), hjoint]
    · refine ⟨skipBlanks after, hls.of_skipBlanks, ?_⟩
      rw [read_blanks_append s hrun hrunEmpty (by decide) (by decide), hjoint]
  have hopen : (s.extend ".").current ≠ "" := by simp [extend]
  obtain ⟨second, hsecond, _, hread'⟩ := hdot _ _ _ _ hopen hfirst
  obtain ⟨third, hthird, htight, hread''⟩ := hdot _ _ _ _ (extend_ne_empty hopen ".") hsecond
  obtain ⟨after, hfits, hafter, hword⟩ := read_joined_word hthird htight
  refine ⟨after, hfits, hafter, ?_⟩
  rw [hread, hread', hread'', hword]
  simp only [extend_extend]
  congr 2

theorem not_atAnnotation_type (t : WrittenType) {pre : String} (hpre : pre = "" ∨ pre = ",")
    (k : OpenStatement) : atAnnotation { k with current := pre ++ t.text } = false := by
  obtain ⟨c, cs, hw, _, hc⟩ := t.name.first.exists_cons
  rcases hpre with rfl | rfl <;> simp [ atAnnotation, t.text_eq, hw, hc]

/-- The type of a parameter is read from its first word on. -/
theorem read_parameterType (t : WrittenType) {pre : String} (hpre : pre = "" ∨ pre = ",")
    (hangles : k.angles = 0) (hapart : Apart text) {l : Lexeme}
    (hhead : l.chars.head? ≠ some '[' ∧ l.chars.head? ≠ some ',')
    (hlaid : Laid (t.tail ++ (arrayBrackets t.dimensions ++ l :: more)) text rest) : ∃ after,
      Laid (l :: more) after rest ∧ (t.isClosed = false → Apart after) ∧
        (({ k with current := pre } : OpenStatement).extend t.name.first.text).read text =
          (if t.isClosed then ({ k.takeAll [pre ++ t.text] with current := "" } : OpenStatement)
            else { k with current := pre ++ t.text }).read after := by
  generalize hs : ({ k with current := pre } : OpenStatement).extend t.name.first.text = s
  have hzero : s.angles = 0 := by rw [← hs]; exact hangles
  have hfirst : s.current = pre ++ t.name.first.text := by rw [← hs]; rfl
  have hcurrent : s.current ≠ "" := by
    rw [hfirst]
    simp [t.name.first.ne_empty]
  have hat : s.atAnnotation = false := by
    obtain ⟨c, cs, hw, _, hc⟩ := t.name.first.exists_cons
    rw [ atAnnotation, hfirst]
    rcases hpre with rfl | rfl <;> simp [hw, hc]
  have hbegins : mayPrecedeTypeParameters (s.current ++ written (dotted t.name.more)) = false := by
    rw [hfirst]
    rcases hpre with rfl | rfl
    · simpa using mayPrecedeTypeParameters_name t.name.first t.name.more
    · exact not_mayPrecedeTypeParameters (c := ',') (by simp) (by decide)
  obtain ⟨after, hafter, hopen, hread⟩ := read_typeTail t hzero hcurrent hbegins hapart hhead hlaid
  refine ⟨after, hafter, hopen, ?_⟩
  rw [hread, t.text_eq]
  generalize written (t.tail ++ arrayBrackets t.dimensions) = tail
  have hat' : atAnnotation (s.extend tail) = false := by rw [atAnnotation_extend hcurrent, hat]
  rw [endToken_of_current_ne_empty (extend_ne_empty hcurrent tail) hat']
  simp [← hs, extend, takeAll, String.append_assoc]

/-- From the first word of its type on, a parameter is read up to its
name. -/
theorem read_toName (p : FormalParameter) {pre : String} (hpre : pre = "" ∨ pre = ",")
    (hangles : k.angles = 0) (hapart : Apart text)
    (hlaid : Laid (p.type.tail ++ (arrayBrackets p.type.dimensions ++
      (p.dots ++ .word p.name.toWord :: more))) text rest) : ∃ after,
      (Lexeme.word p.name.toWord).Fits after ∧ Laid more after rest ∧
        (({ k with current := pre } : OpenStatement).extend p.type.name.first.text).read text =
          ({ k.takeAll (p.ended pre) with current := p.opened pre } : OpenStatement).read
            after := by
  cases hform : p.form with
  | named n =>
      have hdots : p.dots = [] := by rw [FormalParameter.dots, hform]
      rw [hdots, List.nil_append] at hlaid
      obtain ⟨mid, hmid, hopen, htype⟩ := read_parameterType p.type hpre hangles hapart
        (Lexeme.Follows.head?_ne (l := .word p.name.toWord) trivial) hlaid
      have hstands : Stands (if p.type.isClosed then
          ({ k.takeAll [pre ++ p.type.text] with current := "" } : OpenStatement)
            else { k with current := pre ++ p.type.text })
          { k.takeAll [pre ++ p.type.text] with current := "" } mid := by
        cases hclosed : p.type.isClosed with
        | true => exact .of_current_eq_empty rfl mid
        | false =>
            have hat := not_atAnnotation_type p.type hpre k
            have hne : pre ++ p.type.text ≠ "" := by
              simp [p.type.text_eq, p.type.name.first.ne_empty]
            have hended := endToken_of_current_ne_empty
              (s := { k with current := pre ++ p.type.text }) hne hat
            have hstands := Stands.of_apart hat (hopen hclosed)
            rw [hended] at hstands
            exact hstands
      obtain ⟨after, hfits, hafter, hname⟩ := hstands.read_word hmid
      refine ⟨after, hfits, hafter, htype.trans (hname.trans ?_)⟩
      simp [FormalParameter.ended, FormalParameter.opened, hdots, extend]
  | variableArguments =>
      have hdots : p.dots = [.mark '.', .mark '.', .mark '.'] := by rw [FormalParameter.dots, hform]
      rw [hdots] at hlaid
      obtain ⟨mid, hmid, _, htype⟩ := read_parameterType p.type hpre hangles hapart
        (by simp [Lexeme.chars]) hlaid
      obtain ⟨after, hfits, hafter, hname⟩ := read_dots p.name.toWord hmid
      refine ⟨after, hfits, hafter, htype.trans (hname.trans ?_)⟩
      have hempty : p.dots.isEmpty = false := by rw [hdots]; rfl
      have hwritten : written p.dots = "..." := by rw [hdots]; decide
      cases hclosed : p.type.isClosed <;>
        simp [FormalParameter.ended, FormalParameter.opened, FormalParameter.dotsStay, hempty,
          hclosed, hwritten, extend, takeAll]

/-- A parameter is read up to its name. -/
theorem Before.read_parameter {pending : Bool} {s : OpenStatement} (p : FormalParameter)
    (h : Before pending s k text) (hangles : k.angles = 0)
    (hlaid : Laid (p.lexemesToName ++ more) text rest) : ∃ after,
      (Lexeme.word p.name.toWord).Fits after ∧ Laid more after rest ∧
        s.read text = ({ k.takeAll ((front pending text).1 ++
          p.tokensBefore (front pending text).2) with
            current := p.nameToken (front pending text).2 } : OpenStatement).read after := by
  have hpre := front_eq_or pending text
  have htype : p.type.lexemes ++ (p.dots ++ .word p.name.toWord :: more) =
      .word p.type.name.first.toWord :: (p.type.tail ++ (arrayBrackets p.type.dimensions ++
        (p.dots ++ .word p.name.toWord :: more))) := by
    simp [WrittenType.lexemes, ClassType.lexemes]
  cases hfinal : p.isFinal with
  | false =>
      have hsplit : p.lexemesToName ++ more =
          p.type.lexemes ++ (p.dots ++ .word p.name.toWord :: more) := by
        simp [FormalParameter.lexemesToName, hfinal]
      rw [hsplit, htype] at hlaid
      obtain ⟨mid, hfits, hmid, hfirst⟩ := h.read_word hlaid
      generalize front pending text = before at hpre hfirst ⊢
      obtain ⟨extra, pre⟩ := before
      obtain ⟨after, hname, hafter, hread⟩ := read_toName p (k := k.takeAll extra) hpre hangles
        hfits hmid
      refine ⟨after, hname, hafter, hfirst.trans (hread.trans ?_)⟩
      simp [FormalParameter.tokensBefore, FormalParameter.nameToken, hfinal, takeAll]
  | true =>
      have hsplit : p.lexemesToName ++ more =
          .word finalWord :: (p.type.lexemes ++ (p.dots ++ .word p.name.toWord :: more)) := by
        simp [FormalParameter.lexemesToName, hfinal]
      rw [hsplit, htype] at hlaid
      obtain ⟨start, hfits, hstart, hfirst⟩ := h.read_word hlaid
      generalize front pending text = before at hpre hfirst ⊢
      obtain ⟨extra, pre⟩ := before
      have hpre' : pre = "" ∨ pre = "," := hpre
      -- The word `final` is a token of its own.
      have hstands : Stands (({ k.takeAll extra with current := pre } : OpenStatement).extend "final")
          { k.takeAll (extra ++ [pre ++ "final"]) with current := "" } start := by
        refine ⟨?_, ?_, .inr hfits⟩
        · rcases hpre' with rfl | rfl <;> simp [endToken, atAnnotation, extend, takeAll]
        · rcases hpre' with rfl | rfl <;> simp [ atAnnotation, extend]
      obtain ⟨mid, hfits', hmid, hword⟩ := hstands.read_word hstart
      obtain ⟨after, hname, hafter, hread⟩ := read_toName p
        (k := k.takeAll (extra ++ [pre ++ "final"])) (.inl rfl) hangles hfits' hmid
      refine ⟨after, hname, hafter, hfirst.trans (hword.trans (hread.trans ?_))⟩
      simp [FormalParameter.tokensBefore, FormalParameter.nameToken, hfinal, takeAll]

/-! ### After the name -/

/-- The token of a name is open and no annotation. -/
theorem nameToken_open (p : FormalParameter) {pre : String} (hpre : pre = "" ∨ pre = ",") :
    p.nameToken pre ≠ "" ∧ (p.nameToken pre).toList.head? ≠ some '@' := by
  obtain ⟨c, cs, hname, _, hc⟩ := p.name.exists_cons
  obtain ⟨d, ds, htype, _, hd⟩ := p.type.name.first.exists_cons
  have hpre' : (if p.isFinal then "" else pre) = "" ∨ (if p.isFinal then "" else pre) = "," := by
    cases p.isFinal with
    | true => exact .inl rfl
    | false => exact hpre
  have hdots : written p.dots = "" ∨ written p.dots = "..." := by
    rw [FormalParameter.dots]
    cases p.form with
    | named n => exact .inl rfl
    | variableArguments => exact .inr (by decide)
  rw [FormalParameter.nameToken, FormalParameter.opened]
  generalize (if p.isFinal then "" else pre) = pre' at hpre'
  refine ⟨by simp [p.name.ne_empty], ?_⟩
  split
  · rcases hpre' with rfl | rfl <;> simp [p.type.text_eq, htype, hd]
  · rcases hdots with hdots | hdots <;> simp [hdots, hname, hc]

/-- After a bracket that joins the name, the brackets are read to the last. -/
theorem read_closingBrackets {s : OpenStatement} (n : Nat) (hangles : s.angles = 0)
    (hcurrent : s.current ≠ "") {l : Lexeme} (hhead : l.chars.head? ≠ some '[')
    (hlaid : Laid (.mark ']' :: (arrayBrackets n ++ l :: more)) text rest) :
    s.read (skipBlanks text) = (s.extend (written (.mark ']' :: arrayBrackets n))).endToken.read
      (past (.mark ']' :: arrayBrackets n) text) := by
  have hcount : ∀ (u : OpenStatement) (c : Char), c = ']' ∨ c = '[' → u.countAngle c = u := by
    rintro u c (rfl | rfl) <;> rfl
  induction n generalizing s text with
  | zero =>
      obtain ⟨after, htext, _, hafter⟩ := hlaid.skipBlanks
      have hpast : past (.mark ']' :: arrayBrackets 0) text = after := by
        rw [past, htext, List.drop_left]
        rfl
      have hjoins : s.joins ']' (skipBlanks after).head? = false := by
        rw [Laid.head?_skipBlanks hafter]
        simp [joins, closesToken, hangles, hhead]
      rw [hpast, htext, Lexeme.chars, List.singleton_append, read_interrupting hcurrent (by decide),
        boundary, if_pos (by decide), joint]
      dsimp only
      rw [if_neg (by simp), hcount s _ (.inl rfl), hjoins, if_neg (by simp), if_pos (by decide),
        push_eq_extend]
      rfl
  | succ n ih =>
      obtain ⟨mid, htext, _, hmid⟩ := hlaid.skipBlanks
      have hmid' : Laid (.mark '[' :: .mark ']' :: (arrayBrackets n ++ l :: more)) mid rest := hmid
      obtain ⟨after, hopen, _, hafter⟩ := hmid'.skipBlanks
      have hpast : past (.mark ']' :: arrayBrackets (n + 1)) text =
          past (.mark ']' :: arrayBrackets n) after := by
        rw [past, htext, List.drop_left, arrayBrackets, past, hopen, List.drop_left]
      have hclosing : s.boundary ']' mid = (s.push ']', skipBlanks mid) := by
        rw [boundary, if_pos (by decide), joint]
        dsimp only
        rw [if_neg (by simp), hcount s _ (.inl rfl),
          if_pos (by rw [hopen]; simp [joins, Lexeme.chars])]
      have hcurrent' : (s.push ']').current ≠ "" := by simp [push]
      have hopening : (s.push ']').boundary '[' after =
          ((s.push ']').push '[', skipBlanks after) := by
        rw [boundary, if_pos (by decide), joint]
        dsimp only
        rw [if_neg (by simp), hcount _ _ (.inr rfl), if_pos (by simp [joins, closesToken])]
      have hrest := ih (s := (s.push ']').push '[') hangles (by simp [push]) hafter
      rw [hpast, htext, Lexeme.chars, List.singleton_append, read_interrupting hcurrent (by decide),
        hclosing, hopen, Lexeme.chars, List.singleton_append,
        read_interrupting hcurrent' (by decide), hopening, hrest]
      simp only [push_eq_extend, extend_extend, arrayBrackets, written_cons, Lexeme.chars]
      rfl

/-- Brackets after the name of the last parameter end its token. -/
theorem read_lastBrackets {s : OpenStatement} (n : Nat) (hangles : s.angles = 0)
    (hcurrent : s.current ≠ "") (hat : s.atAnnotation = false) (hapart : Apart text) {l : Lexeme}
    (hfollows : l.Follows) (hlaid : Laid (arrayBrackets n ++ l :: more) text rest) : ∃ u after,
      Stands u (s.extend (written (arrayBrackets n))).endToken after ∧ Laid (l :: more) after rest ∧
        s.read text = u.read after := by
  cases n with
  | zero =>
      refine ⟨s, text, ?_, hlaid, rfl⟩
      simpa [arrayBrackets, extend] using Stands.of_apart hat hapart
  | succ n =>
      obtain ⟨after, hafter, hread⟩ :=
        read_arrayBrackets n hangles hcurrent hfollows.head?_ne.1 hlaid
      exact ⟨_, after, .of_current_eq_empty (current_endToken _) after, hafter, hread⟩

/-- A comma between two tokens, or the comma that ends a token, inside
parentheses. -/
theorem joint_comma {s : OpenStatement} (hparentheses : s.parentheses ≠ 0) (hangles : s.angles = 0)
    {tail : List Char} (hhead : (skipBlanks tail).head? ≠ some '[') :
    s.joint ',' tail = (s.endToken, tail) := by
  have hcount : s.countAngle ',' = s := rfl
  rw [joint]
  dsimp only
  rw [if_neg (by simp), hcount,
    if_neg (by simp [joins, closesToken, hparentheses, hangles, hhead]), if_neg (by decide)]

theorem Before.current_eq {pending : Bool} {s : OpenStatement} (h : Before pending s k text) :
    k.current = "" := by
  cases pending with
  | false => exact Stands.current_eq h
  | true => exact h.1

/-- The statement before a comma or parenthesis, with the token of the name
ended. -/
theorem endToken_name (p : FormalParameter) (pending : Bool) (text : List Char)
    (hk : k.current = "") :
    (({ k.takeAll ((front pending text).1 ++ p.tokensBefore (front pending text).2) with
      current := p.nameToken (front pending text).2 } : OpenStatement).extend
        (written (arrayBrackets p.dimensions))).endToken =
          k.takeAll (p.tokensFrom pending text) := by
  obtain ⟨hne, hat⟩ := nameToken_open p (front_eq_or pending text)
  rw [endToken_of_current_ne_empty (extend_ne_empty hne _) (by
    rw [atAnnotation_extend hne]
    simpa [ atAnnotation] using hat)]
  simp [extend, takeAll, FormalParameter.tokensFrom, FormalParameter.tokens, hk]

/-- A parameter with brackets after its name is read up to the last of
them. -/
theorem Before.read_brackets {pending : Bool} {s : OpenStatement} (p : FormalParameter) {n : Nat}
    (hdimensions : p.dimensions = n + 1) (h : Before pending s k text) (hangles : k.angles = 0)
    {l : Lexeme} (hhead : l.chars.head? ≠ some '[')
    (hlaid : Laid (p.lexemes ++ l :: more) text rest) :
    s.read text = (k.takeAll (p.tokensFrom pending text)).read (past p.lexemes text) := by
  -- The text is known exactly from the first bracket on.
  have hopening : Laid ((p.lexemesToName ++ [.mark '[']) ++
      (.mark ']' :: (arrayBrackets n ++ l :: more))) text rest := by
    simpa [FormalParameter.lexemes, hdimensions, arrayBrackets] using hlaid
  have hexact := hopening.exact (by simp)
  have hclosing := hopening.past
  have hbrackets : past p.lexemes text =
      past (.mark ']' :: arrayBrackets n) (past (p.lexemesToName ++ [.mark '[']) text) := by
    rw [← past_append]
    simp [FormalParameter.lexemes, hdimensions, arrayBrackets]
  generalize past (p.lexemesToName ++ [.mark '[']) text = inner at hexact hclosing hbrackets
  obtain ⟨mid, _, hmid, hread⟩ := h.read_parameter p hangles hexact
  have hended := endToken_name p pending text h.current_eq
  generalize he : ({ k.takeAll ((front pending text).1 ++
    p.tokensBefore (front pending text).2) with
      current := p.nameToken (front pending text).2 } : OpenStatement) = e at hread hended
  have hopen : e.current ≠ "" := by
    rw [← he]
    exact (nameToken_open p (front_eq_or pending text)).1
  have hzero : e.angles = 0 := by rw [← he]; exact hangles
  obtain ⟨_, ⟨run, hrun, rfl⟩, hbracket⟩ := read_joint hopen (by decide) hmid
  have hjoint : e.joint '[' (run ++ inner) = (e.push '[', skipBlanks inner) := by
    have hcount : e.countAngle '[' = e := rfl
    rw [joint]
    dsimp only
    rw [if_neg (by simp), hcount, if_pos (by simp [joins, closesToken]),
      skipBlanks_blanks_append hrun]
  have hlast := read_closingBrackets (s := e.push '[') n hzero (by simp [push]) hhead hclosing
  have htoken : (e.push '[').extend (written (.mark ']' :: arrayBrackets n)) =
      e.extend (written (arrayBrackets p.dimensions)) := by
    rw [hdimensions, arrayBrackets, push_eq_extend, extend_extend, written_cons (.mark '[')]
    rfl
  rw [hjoint] at hbracket
  rw [htoken, hended, ← hbrackets] at hlast
  exact hread.trans (hbracket.trans hlast)

/-- The last parameter is read up to what follows it. -/
theorem Before.read_lastParameter {pending : Bool} {s : OpenStatement} (p : FormalParameter)
    (h : Before pending s k text) (hangles : k.angles = 0) {l : Lexeme} (hfollows : l.Follows)
    (hlaid : Laid (p.lexemes ++ l :: more) text rest) : ∃ t after,
      Stands t (k.takeAll (p.tokensFrom pending text)) after ∧ Laid (l :: more) after rest ∧
        s.read text = t.read after := by
  rw [FormalParameter.lexemes, List.append_assoc] at hlaid
  obtain ⟨mid, hfits, hmid, hread⟩ := h.read_parameter p hangles hlaid
  obtain ⟨hne, hat⟩ := nameToken_open p (front_eq_or pending text)
  obtain ⟨t, after, ht, hafter, hlast⟩ := read_lastBrackets p.dimensions
    (s := { k.takeAll ((front pending text).1 ++ p.tokensBefore (front pending text).2) with
      current := p.nameToken (front pending text).2 })
    hangles hne (by simpa [ atAnnotation] using hat) hfits hfollows hmid
  rw [endToken_name p pending text h.current_eq] at ht
  exact ⟨t, after, ht, hafter, hread.trans hlast⟩

/-- The statement after a comma, which may have begun a token. -/
def afterComma (pending : Bool) (k : OpenStatement) : OpenStatement :=
  if pending then { k with current := "," } else k

theorem before_afterComma (pending : Bool) (hk : k.current = "") (text : List Char) :
    Before pending (afterComma pending k) k text := by
  cases pending with
  | false => exact Stands.of_current_eq_empty hk text
  | true => exact ⟨hk, rfl⟩

/-- Between tokens a comma begins a token, unless a blank comes before it. -/
theorem read_comma (hk : k.current = "") (hangles : k.angles = 0)
    (hparentheses : k.parentheses ≠ 0)
    (hhead : (skipBlanks (past [.mark ','] text)).head? ≠ some '[')
    (hlaid : Laid (.mark ',' :: more) text rest) :
    k.read text = (afterComma (text.head? == some ',') k).read (past [.mark ','] text) := by
  obtain ⟨gap, next, hgap, rfl, _, hnext⟩ := hlaid
  have hpast : past [.mark ','] (gap ++ ((Lexeme.mark ',').chars ++ next)) = next := by
    rw [past, skipBlanks_blanks_append hgap]
    rfl
  rw [hpast] at hhead
  rw [hpast, Lexeme.chars, List.singleton_append]
  cases gap with
  | nil =>
      have hbegun : afterComma true k = k.push ',' := by rw [push, hk]; rfl
      rw [List.nil_append, read_cons, step, if_neg (by decide), if_neg (by simp [hk]),
        if_neg (by decide), if_neg (by decide), if_neg (by decide), if_neg (by decide),
        if_neg (by decide), ← hbegun]
      rfl
  | cons b gap =>
      have hb : isBlank b = true := hgap b List.mem_cons_self
      have hne : b ≠ ',' := by rintro rfl; exact absurd hb (by decide)
      have hapart : ((b :: gap ++ ',' :: next).head? == some ',') = false := by simp [hne]
      rw [hapart, read_blanks_append k hgap (by simp) (by decide) (by decide), boundary,
        if_pos (by decide), joint_comma hparentheses hangles hhead, endToken_of_current_eq_empty hk]
      rfl

/-- A parameter and the comma after it are read.  A comma right behind a
bracket begins a token. -/
theorem Before.read_parameter_comma {pending : Bool} {s : OpenStatement} (p : FormalParameter)
    (h : Before pending s k text) (hangles : k.angles = 0) (hparentheses : k.parentheses ≠ 0)
    (hhead : (skipBlanks (past (p.lexemes ++ [.mark ',']) text)).head? ≠ some '[')
    (hlaid : Laid ((p.lexemes ++ [.mark ',']) ++ more) text rest) :
    ∃ run, AllBlank run ∧ (p.touchesComma text = true → run = []) ∧
      s.read text = (afterComma (p.touchesComma text)
        (k.takeAll (p.tokensFrom pending text))).read
          (run ++ past (p.lexemes ++ [.mark ',']) text) := by
  have hk := h.current_eq
  have hempty : ∀ tokens, (k.takeAll tokens).current = "" := fun _ => hk
  cases hdimensions : p.dimensions with
  | zero =>
      have hname : p.lexemes = p.lexemesToName := by
        simp [FormalParameter.lexemes, hdimensions, arrayBrackets]
      have hexact := hlaid.exact (by simp)
      generalize past (p.lexemes ++ [.mark ',']) text = next at hexact hhead ⊢
      rw [hname] at hexact
      obtain ⟨mid, _, hmid, hread⟩ := h.read_parameter p hangles hexact
      have hended := endToken_name p pending text hk
      have hnone : ∀ e : OpenStatement, e.extend (written (arrayBrackets 0)) = e := by
        simp [arrayBrackets, extend]
      rw [hdimensions, hnone] at hended
      generalize he : ({ k.takeAll ((front pending text).1 ++
        p.tokensBefore (front pending text).2) with
          current := p.nameToken (front pending text).2 } : OpenStatement) = e at hread hended
      have hopen : e.current ≠ "" := by
        rw [← he]
        exact (nameToken_open p (front_eq_or pending text)).1
      obtain ⟨_, ⟨run, hrun, rfl⟩, hcomma⟩ := read_joint hopen (by decide) hmid
      have hjoint : e.joint ',' (run ++ next) = (e.endToken, run ++ next) := by
        apply joint_comma
        · rw [← he]; exact hparentheses
        · rw [← he]; exact hangles
        · rwa [skipBlanks_blanks_append hrun]
      rw [hjoint, hended] at hcomma
      have hapart : p.touchesComma text = false := by
        simp [FormalParameter.touchesComma, hdimensions]
      rw [hapart]
      exact ⟨run, hrun, by simp, hread.trans hcomma⟩
  | succ n =>
      have hlaid' : Laid (p.lexemes ++ .mark ',' :: more) text rest := by simpa using hlaid
      have hread := h.read_brackets p hdimensions hangles (by simp [Lexeme.chars]) hlaid'
      rw [past_append] at hhead
      have hcomma := read_comma (hempty (p.tokensFrom pending text)) hangles hparentheses hhead
        hlaid'.past
      rw [← past_append] at hcomma
      have htouches : p.touchesComma text = ((past p.lexemes text).head? == some ',') := by
        simp [FormalParameter.touchesComma, hdimensions]
      rw [htouches]
      exact ⟨[], by simp [AllBlank], by simp, by simpa using hread.trans hcomma⟩

/-! ## What the tokens declare -/

/-- A run of characters of a class is what a text ends with. -/
theorem dropTrailing_append {p : Char → Bool} {xs ys : List Char} (hxs : ∀ c ∈ xs, p c = false)
    (hys : ∀ c ∈ ys, p c = true) :
    dropTrailing p (xs ++ ys) = xs ∧ takeTrailing p (xs ++ ys) = ys := by
  have hreverse : ∀ c ∈ ys.reverse, p c = true := fun c hc => hys c (List.mem_reverse.1 hc)
  obtain ⟨hdrop, htake⟩ := dropTrailing_of_forall_not hxs
  rw [dropTrailing] at hdrop
  rw [takeTrailing, List.reverse_eq_nil_iff] at htake
  rw [dropTrailing, takeTrailing, List.reverse_append, List.dropWhile_append_of_pos hreverse,
    List.takeWhile_append_of_pos hreverse, hdrop, htake]
  simp

theorem isArrayBracket_of_mem (n : Nat) :
    ∀ c ∈ (written (arrayBrackets n)).toList, isArrayBracket c = true := by
  induction n with
  | zero => simp [arrayBrackets]
  | succ n ih => simpa [arrayBrackets, Lexeme.chars, isArrayBracket] using ih

/-- Brackets after the name of a variable go to its type. -/
theorem Word.declare_brackets (w : Word) (n : Nat) (type : String) (isFinal : Bool) :
    Variable.declare (w.text ++ written (arrayBrackets n)) (some type) isFinal =
      ⟨w.text, some (type ++ written (arrayBrackets n)), isFinal⟩ := by
  obtain ⟨hdrop, htake⟩ :=
    dropTrailing_append w.isArrayBracket_eq_false (isArrayBracket_of_mem n)
  rw [Variable.declare, String.toList_append, hdrop, htake]
  simp [String.ofList_toList, -toList_written]

/-- How a parameter is understood when it is read by itself: dots that do not
stay with the type count for the name. -/
def FormalParameter.understood (p : FormalParameter) : Variable :=
  if p.dotsStay then p.declared else ⟨"..." ++ p.name.text, some p.type.text, p.isFinal⟩

theorem FormalParameter.understood_eq_declared_iff (p : FormalParameter) :
    p.understood = p.declared ↔ p.dotsStay = true := by
  rw [understood]
  cases h : p.dotsStay with
  | true => simp
  | false =>
      simp only [Bool.false_eq_true, if_false, iff_false]
      intro heq
      have hname := congrArg (fun v : Variable => v.name.length) heq
      simp [declared] at hname

theorem cutAfterDots_cons {c : Char} {text : List Char} (h : c = '.' → text.head? ≠ some '.') :
    cutAfterDots (c :: text) = (cutAfterDots text).map fun cut => (c :: cut.1, cut.2) := by
  conv => lhs; unfold cutAfterDots
  split
  · next heq => cases heq
  · next heq =>
      cases heq
      exact absurd rfl (h rfl)
  · next heq =>
      cases heq
      rfl

/-- Dots after a word are found. -/
theorem cutAfterDots_word (w : Word) (text : List Char) :
    cutAfterDots (w.text.toList ++ text) =
      (cutAfterDots text).map fun cut => (w.text.toList ++ cut.1, cut.2) := by
  have hdot := w.not_mem (c := '.') (by decide)
  generalize w.text.toList = cs at hdot
  induction cs with
  | nil => simp
  | cons c cs ih =>
      rw [List.mem_cons, not_or] at hdot
      rw [List.cons_append, cutAfterDots_cons (fun h => absurd h.symm hdot.1), ih hdot.2]
      cases cutAfterDots text <;> rfl

/-- Dots after a dotted name are found. -/
theorem cutAfterDots_dotted (ws : List Word) (text : List Char) :
    cutAfterDots ((written (dotted ws)).toList ++ text) =
      (cutAfterDots text).map fun cut => ((written (dotted ws)).toList ++ cut.1, cut.2) := by
  induction ws with
  | nil => simp [dotted]
  | cons w ws ih =>
      have htext : (written (dotted (w :: ws))).toList ++ text =
          '.' :: (w.text.toList ++ ((written (dotted ws)).toList ++ text)) := by
        simp [dotted, Lexeme.chars]
      rw [htext, cutAfterDots_cons (fun _ => w.not_head?_dot _), cutAfterDots_word, ih]
      cases cutAfterDots text <;> simp [dotted, Lexeme.chars]

/-- The dots that stay with a type end it. -/
theorem cutAfterDots_variableArguments (t : WrittenType) (hopen : t.isClosed = false)
    (w : Word) : cutAfterDots (t.text ++ ("..." ++ w.text)).toList =
      some ((t.text ++ "...").toList, w.text.toList) := by
  have hparts : t.arguments = none ∧ t.dimensions = 0 := by
    simpa [WrittenType.isClosed] using hopen
  have htext : t.text = t.name.first.text ++ written (dotted t.name.more) := by
    rw [t.text_eq, ClassType.tail, hparts.1, hparts.2]
    simp [argumentLexemes, arrayBrackets]
  have hdots : ("..." ++ w.text).toList = '.' :: '.' :: '.' :: w.text.toList := by
    rw [String.toList_append]
    rfl
  have hcut : cutAfterDots ('.' :: '.' :: '.' :: w.text.toList) =
      some (['.', '.', '.'], w.text.toList) := by rw [cutAfterDots]
  rw [String.toList_append, htext, String.toList_append, hdots, List.append_assoc,
    cutAfterDots_word, cutAfterDots_dotted, hcut]
  simp

/-- The name after dots that do not stay with the type. -/
theorem declare_dots (w : Word) (type : String) (isFinal : Bool) :
    Variable.declare ("..." ++ w.text) (some type) isFinal =
      ⟨"..." ++ w.text, some type, isFinal⟩ := by
  have hnone : ∀ c ∈ ("..." ++ w.text).toList, isArrayBracket c = false := by
    intro c hc
    rw [String.toList_append] at hc
    rcases List.mem_append.1 hc with hc | hc
    · have hdot : c = '.' := by simpa using hc
      rw [hdot]
      decide
    · exact w.isArrayBracket_eq_false c hc
  obtain ⟨hdrop, htake⟩ := dropTrailing_of_forall_not hnone
  rw [Variable.declare, hdrop, htake, String.ofList_toList]
  simp

theorem WrittenType.text_ne_closing (t : WrittenType) : t.text ≠ ")" := by
  intro h
  obtain ⟨c, cs, htext, hplain⟩ := t.exists_cons
  rw [h] at htext
  cases htext
  exact absurd hplain (by decide)

section

variable {p : FormalParameter}

/-- The three dots begin the name where the type ends in a bracket. -/
theorem parameters_dots_closed (hdots : written p.dots = "...") (hsome : p.dots.isEmpty = false)
    (hclosed : p.type.isClosed = true) (isFinal : Bool) (others : List String) :
    parameters isFinal (p.ended "" ++ p.opened "" :: others) =
      { p.understood with isFinal } :: parameters false others := by
  have hfinal : p.type.text ≠ "final" := p.type.ne_of_reserved (by decide)
  have hstay : p.dotsStay = false := by
    rw [FormalParameter.dotsStay, hsome, hclosed]
    rfl
  have hended : p.ended "" = [p.type.text] := by simp [FormalParameter.ended, hstay]
  have hopened : p.opened "" = "..." ++ p.name.text := by
    simp [FormalParameter.opened, hstay, hdots]
  have hunderstood : p.understood = ⟨"..." ++ p.name.text, some p.type.text, p.isFinal⟩ := by
    rw [FormalParameter.understood, hstay]
    rfl
  rw [hended, hopened, hunderstood, parameters.eq_def]
  simp only [List.singleton_append, p.type.cutAfterDots_eq_none, declare_dots]
  simp [hfinal, p.type.text_ne_closing]

/-- Elsewhere type, dots and name are one token, which is cut after the dots. -/
theorem parameters_dots_open (hdots : written (p.dots ++ arrayBrackets p.dimensions) = "...")
    (hwritten : written p.dots = "...") (hsome : p.dots.isEmpty = false)
    (hclosed : p.type.isClosed = false) (isFinal : Bool) (others : List String) :
    parameters isFinal (p.ended "" ++ p.opened "" :: others) =
      { p.understood with isFinal } :: parameters false others := by
  have hstay : p.dotsStay = true := by
    rw [FormalParameter.dotsStay, hclosed]
    simp
  have hended : p.ended "" = [] := by simp [FormalParameter.ended, hstay, hsome]
  have hopened : p.opened "" = p.type.text ++ ("..." ++ p.name.text) := by
    simp only [FormalParameter.opened, hstay, hsome, hwritten]
    simp
  have hunderstood : p.understood = ⟨p.name.text, some (p.type.text ++ "..."), p.isFinal⟩ := by
    rw [FormalParameter.understood, hstay, FormalParameter.declared, hdots]
    rfl
  have hcut := cutAfterDots_variableArguments p.type hclosed p.name.toWord
  have hne : p.type.text ++ ("..." ++ p.name.text) ≠ "final" ∧
      p.type.text ++ ("..." ++ p.name.text) ≠ ")" := by
    constructor <;> (intro h; rw [h] at hcut; exact absurd hcut (by simp [cutAfterDots]))
  rw [hended, hopened, hunderstood, parameters.eq_def]
  simp only [List.nil_append, hcut]
  simp [hne.1, hne.2, Word.declare_eq]

end

/-- A type and a name, in two tokens or one, are understood together. -/
theorem parameters_ended (p : FormalParameter) (isFinal : Bool) (others : List String) :
    parameters isFinal (p.ended "" ++
      (p.opened "" ++ written (arrayBrackets p.dimensions)) :: others) =
        { p.understood with isFinal } :: parameters false others := by
  cases hform : p.form with
  | named n =>
      have hfinal : p.type.text ≠ "final" := p.type.ne_of_reserved (by decide)
      have hdots : p.dots = [] := by rw [FormalParameter.dots, hform]
      have hstay : p.dotsStay = true := by simp [FormalParameter.dotsStay, hdots]
      rw [parameters.eq_def]
      simp [FormalParameter.ended, FormalParameter.opened, FormalParameter.understood,
        FormalParameter.declared, hdots, hstay, hfinal, p.type.text_ne_closing,
        p.type.cutAfterDots_eq_none, Word.declare_brackets]
  | variableArguments =>
      have hdots : p.dots = [.mark '.', .mark '.', .mark '.'] := by rw [FormalParameter.dots, hform]
      have hsome : p.dots.isEmpty = false := by rw [hdots]; rfl
      have hwritten : written p.dots = "..." := by rw [hdots]; decide
      have hdimensions : p.dimensions = 0 := by rw [FormalParameter.dimensions, hform]
      have hnone : ∀ text : String, text ++ written (arrayBrackets p.dimensions) = text := by
        simp [hdimensions, arrayBrackets]
      rw [hnone]
      cases hclosed : p.type.isClosed with
      | true => exact parameters_dots_closed hwritten hsome hclosed isFinal others
      | false =>
          have hsuffix : written (p.dots ++ arrayBrackets p.dimensions) = "..." := by
            rw [written_append, hnone, hwritten]
          exact parameters_dots_open hsuffix hwritten hsome hclosed isFinal others

/-- A parameter is understood by itself when nothing comes before it. -/
theorem parameters_tokens (p : FormalParameter) (others : List String) :
    parameters false (p.tokens "" ++ others) = p.understood :: parameters false others := by
  have hunderstood : { p.understood with isFinal := p.isFinal } = p.understood := by
    rw [FormalParameter.understood]
    split <;> rfl
  cases h : p.isFinal with
  | false =>
      have htokens : p.tokens "" ++ others =
          p.ended "" ++ (p.opened "" ++ written (arrayBrackets p.dimensions)) :: others := by
        simp [FormalParameter.tokens, FormalParameter.tokensBefore, FormalParameter.nameToken, h]
      rw [htokens, parameters_ended, ← h, hunderstood]
  | true =>
      have htokens : p.tokens "" ++ others = "final" ::
          (p.ended "" ++ (p.opened "" ++ written (arrayBrackets p.dimensions)) :: others) := by
        simp [FormalParameter.tokens, FormalParameter.tokensBefore, FormalParameter.nameToken, h]
      rw [htokens, parameters.eq_def]
      simp only [Bool.not_false, beq_self_eq_true, Bool.and_self]
      rw [if_neg (by decide), if_pos trivial, parameters_ended, ← h, hunderstood]

/-- After a comma that has begun a token no parameter is understood. -/
theorem parameters_comma {token : String} (hcomma : token.toList.head? = some ',')
    {others : List String} (hothers : others ≠ []) : ∃ v vs type,
      parameters false (token :: others) = v :: vs ∧ v.type = some type ∧
        type.toList.head? = some ',' := by
  obtain ⟨cs, htoken⟩ : ∃ cs, token.toList = ',' :: cs := by
    cases h : token.toList with
    | nil => rw [h] at hcomma; cases hcomma
    | cons c cs => rw [h] at hcomma; cases hcomma; exact ⟨cs, rfl⟩
  obtain ⟨name, others, rfl⟩ := List.exists_cons_of_ne_nil hothers
  have hne : token ≠ ")" ∧ token ≠ "final" := by
    constructor <;> (rintro rfl; cases htoken)
  have hcut := @cutAfterDots_cons ',' cs (fun h => absurd h (by decide))
  rw [← htoken] at hcut
  rw [parameters.eq_def]
  simp only [Bool.not_false, Bool.true_and, beq_iff_eq, hne.1, hne.2, if_false, hcut]
  cases cutAfterDots cs with
  | some cut => exact ⟨_, _, _, rfl, rfl, by simp⟩
  | none =>
      exact ⟨_, _, _, rfl, rfl, by simp [htoken]⟩

/-- The tokens after a comma that has begun a token begin with it. -/
theorem FormalParameter.head_tokensFrom (p : FormalParameter) (text : List Char) :
    ∃ token others, p.tokensFrom true text = token :: others ∧
      token.toList.head? = some ',' := by
  rw [tokensFrom, front, if_pos rfl]
  split
  · exact ⟨",", p.tokens "", rfl, rfl⟩
  · have hhead : ∀ text : String, ("," ++ text).toList.head? = some ',' := by
      intro text
      simp
    rw [List.nil_append]
    cases hfinal : p.isFinal with
    | true =>
        refine ⟨"," ++ "final", p.ended "" ++ [p.opened "" ++ written (arrayBrackets p.dimensions)],
          ?_, hhead _⟩
        simp [tokens, tokensBefore, nameToken, hfinal]
    | false =>
        cases hdots : p.dotsStay && !p.dots.isEmpty with
        | true =>
            refine ⟨"," ++ (p.type.text ++ (written p.dots ++ p.name.text) ++
              written (arrayBrackets p.dimensions)), [], ?_, hhead _⟩
            simp only [tokens, tokensBefore, nameToken, ended, opened, hfinal, hdots]
            simp [String.append_assoc]
        | false =>
            refine ⟨"," ++ p.type.text, [p.opened "," ++ written (arrayBrackets p.dimensions)], ?_,
              hhead _⟩
            simp only [tokens, tokensBefore, nameToken, ended, hfinal, hdots]
            simp

theorem formalLexemes_cons (p : FormalParameter) (ps : List FormalParameter) :
    ∃ w ls, formalLexemes (p :: ps) = .word w :: ls := by
  have hfirst : ∃ w ls, p.lexemes = .word w :: ls := by
    cases hfinal : p.isFinal with
    | false =>
        refine ⟨p.type.name.first.toWord, p.type.tail ++ (arrayBrackets p.type.dimensions ++
          (p.dots ++ .word p.name.toWord :: arrayBrackets p.dimensions)), ?_⟩
        simp [FormalParameter.lexemes, FormalParameter.lexemesToName, hfinal, WrittenType.lexemes,
          ClassType.lexemes]
    | true =>
        refine ⟨finalWord, p.type.lexemes ++
          (p.dots ++ .word p.name.toWord :: arrayBrackets p.dimensions), ?_⟩
        simp [FormalParameter.lexemes, FormalParameter.lexemesToName, hfinal]
  obtain ⟨w, ls, hp⟩ := hfirst
  cases ps with
  | nil => exact ⟨w, ls, hp⟩
  | cons q ps => exact ⟨w, ls ++ .mark ',' :: formalLexemes (q :: ps), by simp [formalLexemes, hp]⟩

/-- The closed parenthesis ends the parameters. -/
theorem parameters_closed (others : List String) : parameters false (")" :: others) = [] := by
  rw [parameters.eq_def]
  simp

/-- Parameters are understood as declared only if nothing is pending before
the first and it is understood by itself. -/
theorem parameters_eq_iff (p : FormalParameter) (ps : List FormalParameter) (pending : Bool)
    (text : List Char) {others : List String} (hothers : others ≠ []) :
    parameters false (p.tokensFrom pending text ++ others) =
        (p :: ps).map FormalParameter.declared ↔
      pending = false ∧ p.dotsStay = true ∧
        parameters false others = ps.map FormalParameter.declared := by
  cases pending with
  | false =>
      have htokens : p.tokensFrom false text = p.tokens "" := rfl
      rw [htokens, parameters_tokens, List.map_cons, List.cons.injEq, p.understood_eq_declared_iff]
      simp
  | true =>
      obtain ⟨token, tokens, htokens, hcomma⟩ := p.head_tokensFrom text
      have hmore : tokens ++ others ≠ [] := by simp [hothers]
      obtain ⟨v, vs, type, hread, htype, hhead⟩ := parameters_comma hcomma hmore
      rw [htokens, List.cons_append, hread]
      simp only [Bool.true_eq_false, false_and, iff_false]
      intro heq
      have hv : v = p.declared := (List.cons.inj heq).1
      obtain ⟨c, cs, htext, hplain⟩ := p.type.exists_cons
      rw [hv, FormalParameter.declared, Option.some.injEq] at htype
      rw [← htype, String.toList_append, htext, List.cons_append, List.head?_cons] at hhead
      cases hhead
      exact absurd hplain (by decide)

/-! ## Lists of parameters -/

/-- The tokens of parameters where `text` begins with them, and of a comma that
has begun a token. -/
def formalTokens : Bool → List FormalParameter → List Char → List String
  | _, [], _ => []
  | pending, p :: ps, text =>
    p.tokensFrom pending text ++
      formalTokens (p.touchesComma text) ps (past (p.lexemes ++ [.mark ',']) text)

/-- Blanks before the first parameter matter only after a comma that has begun
a token. -/
theorem formalTokens_blanks_append {pending : Bool} (ps : List FormalParameter) {run : List Char}
    (hrun : AllBlank run) (hpending : pending = true → run = []) (text : List Char) :
    formalTokens pending ps (run ++ text) = formalTokens pending ps text := by
  cases pending with
  | true => rw [hpending rfl, List.nil_append]
  | false =>
      cases ps with
      | nil => rfl
      | cons p ps =>
          have hne : p.lexemes ≠ [] := by
            simp [FormalParameter.lexemes, FormalParameter.lexemesToName]
          rw [formalTokens, formalTokens, FormalParameter.touchesComma,
            FormalParameter.touchesComma, past_blanks_append hne hrun,
            past_blanks_append (by simp) hrun]
          rfl

/-- **Lists of parameters are understood as they are written**, as long as no
comma comes right behind the brackets of a name and all dots stay with their
types. -/
theorem parameters_formalTokens_iff (ps : List FormalParameter) {pending : Bool}
    (hsome : pending = true → ps ≠ []) (text : List Char) (others : List String) :
    parameters false (formalTokens pending ps text ++ ")" :: others) =
        ps.map FormalParameter.declared ↔
      pending = false ∧ commasApart ps text = true ∧
        ps.all FormalParameter.dotsStay = true := by
  induction ps generalizing pending text with
  | nil =>
      cases pending with
      | true => exact absurd rfl (hsome rfl)
      | false => simp [formalTokens, parameters_closed, commasApart]
  | cons p ps ih =>
      rw [formalTokens, List.append_assoc, parameters_eq_iff p ps pending text (by simp)]
      cases ps with
      | nil => simp [formalTokens, parameters_closed, commasApart]
      | cons q ps =>
          have hcommas : commasApart (p :: q :: ps) text = (!p.touchesComma text &&
              commasApart (q :: ps) (past (p.lexemes ++ [.mark ',']) text)) := rfl
          rw [ih (by simp), hcommas, List.all_cons]
          generalize p.touchesComma text = touches
          cases touches <;> simp [and_left_comm]

/-- Lists of parameters are read up to what follows them. -/
theorem read_formals (ps : List FormalParameter) {pending : Bool} {s : OpenStatement}
    (h : Before pending s k text) (hsome : pending = true → ps ≠ []) (hangles : k.angles = 0)
    (hparentheses : k.parentheses ≠ 0) {l : Lexeme} (hfollows : l.Follows)
    (hlaid : Laid (formalLexemes ps ++ l :: more) text rest) : ∃ t after,
      Stands t (k.takeAll (formalTokens pending ps text)) after ∧ Laid (l :: more) after rest ∧
        s.read text = t.read after := by
  induction ps generalizing pending s k text with
  | nil =>
      cases pending with
      | true => exact absurd rfl (hsome rfl)
      | false =>
          have hs : Stands s k text := h
          have hnone : k.takeAll [] = k := by simp [takeAll]
          exact ⟨s, text, by rwa [formalTokens, hnone], hlaid, rfl⟩
  | cons p ps ih =>
      have hk := h.current_eq
      cases ps with
      | nil =>
          obtain ⟨t, after, ht, hafter, hread⟩ := h.read_lastParameter p hangles hfollows hlaid
          exact ⟨t, after, by simpa [formalTokens] using ht, hafter, hread⟩
      | cons q ps =>
          obtain ⟨w, ls, hq⟩ := formalLexemes_cons q ps
          have hsplit : formalLexemes (p :: q :: ps) ++ l :: more =
              (p.lexemes ++ [.mark ',']) ++ (formalLexemes (q :: ps) ++ l :: more) := by
            simp [formalLexemes]
          rw [hsplit] at hlaid
          have hhead : (skipBlanks (past (p.lexemes ++ [.mark ',']) text)).head? ≠ some '[' := by
            have hword := hlaid.past
            rw [hq, List.cons_append] at hword
            rw [hword.head?_skipBlanks]
            exact (Lexeme.Follows.head?_ne (l := .word w) trivial).1
          obtain ⟨run, hrun, htouches, hread⟩ :=
            h.read_parameter_comma p hangles hparentheses hhead hlaid
          have hnext : Laid (formalLexemes (q :: ps) ++ l :: more)
              (run ++ past (p.lexemes ++ [.mark ',']) text) rest :=
            hlaid.past.blanks_append hrun
          obtain ⟨u, after, hu, hafter, hread'⟩ :=
            ih (before_afterComma _ (k := k.takeAll (p.tokensFrom pending text)) hk _) (by simp)
              hangles hparentheses hnext
          refine ⟨u, after, ?_, hafter, hread.trans hread'⟩
          rw [formalTokens_blanks_append (q :: ps) hrun htouches] at hu
          rw [formalTokens]
          simpa [takeAll] using hu

end JavaOutline
