import JavaOutline.Proofs.Grammar.Locals
import JavaOutline.Proofs.Grammar.Parameters
import JavaOutline.Proofs.Layout.Values

/-!
# JavaOutline.Proofs.Grammar.Declarators

Declarations of fields as they may be written: every name may have array
brackets after it, and any expression as its value.  Two things go wrong:

1. a comma behind the brackets of a name begins a token of its own, and nothing
   is declared of what follows;
2. an angle bracket that is not closed in a value is taken for type arguments,
   and what follows for a part of the value, until a comma comes at which no
   angle bracket counts as open.

`recorded` says which declarators are left.  They are read as they are written,
and all of them are left unless one of the two happens before the last
(`FieldDeclaration.declares_fields`).
-/

namespace JavaOutline

open Text OpenStatement

/-! ## Declarators -/

/-- A declarator as it may be written. -/
structure FieldDeclarator where
  name : Name
  /-- The number of pairs of array brackets after the name. -/
  dimensions : Nat
  value : Option Value

namespace FieldDeclarator

/-- The lexemes of a declarator before its value. -/
def heading (d : FieldDeclarator) : List Lexeme :=
  .word d.name.toWord :: arrayBrackets d.dimensions

/-- The mark after a name and its brackets. -/
def lastMark (d : FieldDeclarator) (separator : Char) : Lexeme :=
  .mark (if d.value.isSome then '=' else separator)

/-- The text after the mark: the value and the separator, if the mark is an
equals sign. -/
def textAfter (d : FieldDeclarator) (separator : Char) (rest : List Char) : List Char :=
  match d.value with
  | none => rest
  | some e => e.text ++ separator :: rest

/-- How many angle brackets count as open after a declarator, if `n` do before
it. -/
def anglesAfter (d : FieldDeclarator) (n : Nat) : Nat :=
  match d.value with
  | none => n
  | some e => openAngles n e.text

/-- Whether the comma after a declarator begins a token of its own. -/
def cutsOff (d : FieldDeclarator) : Bool := d.value.isNone && d.dimensions != 0

/-- Whether the comma after a declarator separates it from the next. -/
def endsAtComma (d : FieldDeclarator) : Bool := !d.cutsOff && d.anglesAfter 0 == 0

theorem anglesAfter_of_cutsOff (d : FieldDeclarator) (h : d.cutsOff = true) :
    d.anglesAfter 0 = 0 := by
  cases hvalue : d.value with
  | none => rw [anglesAfter, hvalue]
  | some e => simp [cutsOff, hvalue] at h

end FieldDeclarator

/-- The declarators that are recorded, if `n` angle brackets count as open
before them. -/
def recorded : Nat → List FieldDeclarator → List FieldDeclarator
  | _, [] => []
  | 0, d :: ds => d :: (if d.cutsOff then [] else recorded (d.anglesAfter 0) ds)
  | n + 1, d :: ds => recorded (d.anglesAfter (n + 1)) ds

/-- What comes before some declarators. -/
def separatorBefore : List FieldDeclarator → Char
  | [] => ';'
  | _ :: _ => ','

/-- Whether a text begins with declarators, a comma between any two and a
semicolon after the last, and goes on with another text. -/
def Listed : List FieldDeclarator → List Char → List Char → Prop
  | [], text, rest => Laid [] text rest
  | d :: ds, text, rest => ∃ mid, Laid (d.heading ++ [d.lastMark (separatorBefore ds)]) text
      (d.textAfter (separatorBefore ds) mid) ∧ Listed ds mid rest

/-- A declaration of fields. -/
structure FieldDeclaration where
  modifiers : List Modifier
  type : WrittenType
  first : FieldDeclarator
  more : List FieldDeclarator

namespace FieldDeclaration

/-- All declarators of a declaration. -/
def declarators (f : FieldDeclaration) : List FieldDeclarator := f.first :: f.more

/-- Whether a text begins with a declaration and goes on with another text. -/
def LaidOut (f : FieldDeclaration) (text rest : List Char) : Prop :=
  ∃ mid, Laid (modifierLexemes f.modifiers ++ f.type.lexemes) text mid ∧
    Listed f.declarators mid rest

/-- The field of a declarator, with what the modifiers say. -/
def field (f : FieldDeclaration) (d : FieldDeclarator) : Member where
  name := d.name.text
  type := some (f.type.text ++ written (arrayBrackets d.dimensions))
  isFinal := (modifiersOf f.modifiers).isFinal
  access := (modifiersOf f.modifiers).access
  isStatic := (modifiersOf f.modifiers).isStatic

end FieldDeclaration

/-! ## Which declarators are recorded -/

theorem recorded_sublist (n : Nat) (ds : List FieldDeclarator) : (recorded n ds).Sublist ds := by
  induction ds generalizing n with
  | nil => cases n <;> exact .slnil
  | cons d ds ih =>
      cases n with
      | zero =>
          rw [recorded]
          split
          · exact (List.nil_sublist ds).cons_cons d
          · exact (ih _).cons_cons d
      | succ n => exact (ih _).cons d

/-- Where an angle bracket counts as open, the next declarator is not recorded. -/
theorem recorded_succ_ne (n : Nat) (d : FieldDeclarator) (ds : List FieldDeclarator) :
    recorded (n + 1) (d :: ds) ≠ d :: ds := by
  intro h
  have hlength := (recorded_sublist (d.anglesAfter (n + 1)) ds).length_le
  rw [← recorded, h, List.length_cons] at hlength
  omega

/-- All declarators are recorded if every one but the last ends at its comma. -/
theorem recorded_eq_self_iff (d : FieldDeclarator) (ds : List FieldDeclarator) :
    recorded 0 (d :: ds) = d :: ds ↔ (d :: ds).dropLast.all FieldDeclarator.endsAtComma = true := by
  induction ds generalizing d with
  | nil => simp [recorded]
  | cons e ds ih =>
      rw [recorded, List.dropLast_cons_cons, List.all_cons, Bool.and_eq_true, ← ih e]
      cases hcuts : d.cutsOff with
      | true => simp [FieldDeclarator.endsAtComma, hcuts]
      | false =>
          cases hangles : d.anglesAfter 0 with
          | zero => simp [FieldDeclarator.endsAtComma, hcuts, hangles]
          | succ n =>
              have hnot := recorded_succ_ne n e ds
              simp [FieldDeclarator.endsAtComma, hcuts, hangles, hnot]

/-! ## Passing over declarators -/

theorem initializerEnd_arrayBrackets (dimensions n : Nat) {l : Lexeme} {more : List Lexeme}
    {text rest : List Char} (hlaid : Laid (arrayBrackets dimensions ++ l :: more) text rest) :
    ∃ after, Laid (l :: more) after rest ∧
      initializerEnd (.ofStack [] n) text = initializerEnd (.ofStack [] n) after := by
  induction dimensions generalizing text with
  | zero => exact ⟨text, hlaid, rfl⟩
  | succ dimensions ih =>
      obtain ⟨run, mid, hrun, rfl, _, run', last, hrun', rfl, _, hlast⟩ := hlaid
      obtain ⟨after, hafter, hend⟩ := ih hlast
      refine ⟨after, hafter, ?_⟩
      rw [initializerEnd_blanks_append _ hrun, Lexeme.chars, List.singleton_append,
        initializerEnd_cons _ (by decide) (by decide) (by simp) (by simp),
        OpenBrackets.after_opening (by decide : closerOf '[' = some ']'),
        initializerEnd_blanks_append _ hrun', Lexeme.chars, List.singleton_append,
        initializerEnd_cons _ (by decide) (by decide) (by simp) (by simp),
        OpenBrackets.after_closing (by decide), hend]

theorem separatorBefore_eq (ds : List FieldDeclarator) :
    separatorBefore ds = ',' ∨ separatorBefore ds = ';' := by
  cases ds with
  | nil => exact .inr rfl
  | cons d ds => exact .inl rfl

/-- A declarator is passed over up to the separator after it. -/
theorem FieldDeclarator.initializerEnd_eq (d : FieldDeclarator) (n : Nat)
    {ds : List FieldDeclarator} {text rest : List Char}
    (hlaid : Laid (d.heading ++ [d.lastMark (separatorBefore ds)]) text
      (d.textAfter (separatorBefore ds) rest)) : ∃ after, Laid [] after rest ∧
        initializerEnd (.ofStack [] n) text =
          initializerEnd (.ofStack [] (d.anglesAfter n)) (separatorBefore ds :: after) := by
  obtain ⟨run, mid, hrun, rfl, _, hmid⟩ := hlaid
  obtain ⟨last, ⟨run', after, hrun', rfl, _, hafter⟩, hbrackets⟩ :=
    initializerEnd_arrayBrackets d.dimensions n hmid
  rw [initializerEnd_blanks_append _ hrun, Lexeme.chars, initializerEnd_word, hbrackets,
    initializerEnd_blanks_append _ hrun']
  cases hvalue : d.value with
  | none =>
      rw [textAfter, hvalue] at hafter
      refine ⟨after, hafter, ?_⟩
      simp [lastMark, hvalue, Lexeme.chars, anglesAfter]
  | some e =>
      obtain ⟨gap, hgap, rfl⟩ := hafter
      refine ⟨rest, .nil rest, ?_⟩
      rw [lastMark, hvalue, Option.isSome_some, if_pos rfl, Lexeme.chars, List.singleton_append,
        initializerEnd_cons _ (by decide) (by decide) (by simp) (by simp),
        textAfter, hvalue, anglesAfter, hvalue, initializerEnd_blanks_append _ hgap]
      exact e.initializerEnd_append n (separatorBefore_eq ds) rest

/-! ## Going on at a separator -/

namespace OpenStatement

/-- Go on with the last token where an initializer ends. -/
def resume (k : OpenStatement) : InitializerEnd → Option (Statement (List Char) × List Char)
  | .comma text => k.reopen.read text
  | .semicolon text => some (⟨k.tokens, .semicolon⟩, text)
  | .endOfText => some (⟨k.tokens, .endOfText⟩, [])

/-- Read on before a separator at which `n` angle brackets count as open: if
there are any, the separator belongs to the initializer of the last token. -/
def readOpen (s : OpenStatement) (n : Nat) (text : List Char) :
    Option (Statement (List Char) × List Char) :=
  if n = 0 then s.read text else s.endToken.resume (initializerEnd (.ofStack [] n) text)

/-- No parenthesis and no type arguments are open, and no annotation is being
read. -/
structure Outside (s : OpenStatement) : Prop where
  parentheses_eq : s.parentheses = 0
  angles_eq : s.angles = 0
  plainly : s.atAnnotation = false

/-- The token of a name is being read. -/
structure InName (s : OpenStatement) : Prop extends Outside s where
  current_ne : s.current ≠ ""

theorem Outside.endToken {s : OpenStatement} (hs : Outside s) : Outside s.endToken where
  parentheses_eq := by rw [parentheses_endToken, hs.parentheses_eq]
  angles_eq := by rw [angles_endToken, hs.angles_eq]
  plainly := atAnnotation_endToken s

theorem InName.extend {s : OpenStatement} (hs : InName s) (text : String) :
    InName (s.extend text) where
  parentheses_eq := hs.parentheses_eq
  angles_eq := hs.angles_eq
  current_ne := extend_ne_empty hs.current_ne text
  plainly := (atAnnotation_extend hs.current_ne text).trans hs.plainly

end OpenStatement

theorem laid_separatorBefore (ds : List FieldDeclarator) {after rest : List Char}
    (h : Laid [] after rest) :
    Laid [.mark (separatorBefore ds)] (separatorBefore ds :: after) rest := by
  refine ⟨[], after, by simp [AllBlank], rfl, ⟨?_, ?_⟩, h⟩
  · rcases separatorBefore_eq ds with heq | heq <;> rw [heq] <;> decide
  · rcases separatorBefore_eq ds with heq | heq <;> simp [heq]

namespace OpenStatement

variable {s : OpenStatement} {ds : List FieldDeclarator} {text rest : List Char}

/-- The semicolon after the last declarator ends the statement. -/
theorem Outside.readOpen_semicolon (hs : Outside s) (n : Nat)
    (hlaid : Laid [.mark ';'] text rest) : ∃ after, Laid [] after rest ∧
      s.readOpen n text = some (⟨s.endToken.tokens, .semicolon⟩, after) := by
  rw [readOpen]
  split
  · exact (Stands.of_apart hs.plainly (hlaid.apart (by decide))).read_semicolon
      hs.endToken.parentheses_eq hlaid
  · obtain ⟨run, after, hrun, rfl, _, hafter⟩ := hlaid
    refine ⟨after, hafter, ?_⟩
    rw [initializerEnd_blanks_append _ hrun, Lexeme.chars, List.singleton_append,
      initializerEnd_semicolon, resume]

/-- Where an initializer has come to a separator, reading goes on before it. -/
theorem InName.resume_eq (hs : InName s) (n : Nat) (after : List Char) :
    s.endToken.resume (initializerEnd (.ofStack [] n) (separatorBefore ds :: after)) =
      s.readOpen n (separatorBefore ds :: after) := by
  cases n with
  | succ n => rfl
  | zero =>
      cases ds with
      | cons d ds =>
          rw [separatorBefore, initializerEnd_comma, resume,
            reopen_endToken hs.current_ne hs.plainly]
          rfl
      | nil =>
          have hclosed : ¬ 0 < s.parentheses := by rw [hs.parentheses_eq]; omega
          rw [separatorBefore, initializerEnd_semicolon, resume, readOpen, if_pos rfl, read_cons,
            step_mayEnd (by decide) (.inr (by decide)), readEnding, if_neg (by simp),
            if_neg hclosed]
          rfl

/-- A declarator in an initializer that goes on over it is passed over. -/
theorem InName.readOpen_succ (hs : InName s) (n : Nat) (d : FieldDeclarator) {mid : List Char}
    (hcomma : Laid [.mark ','] text mid)
    (hlaid : Laid (d.heading ++ [d.lastMark (separatorBefore ds)]) mid
      (d.textAfter (separatorBefore ds) rest)) : ∃ after,
        Laid [.mark (separatorBefore ds)] after rest ∧
          s.readOpen (n + 1) text = s.readOpen (d.anglesAfter (n + 1)) after := by
  obtain ⟨run, start, hrun, rfl, _, gap, hgap, rfl⟩ := hcomma
  obtain ⟨after, hafter, hend⟩ := d.initializerEnd_eq (n + 1) hlaid
  refine ⟨separatorBefore ds :: after, laid_separatorBefore ds hafter, ?_⟩
  rw [readOpen, if_neg (Nat.succ_ne_zero n), initializerEnd_blanks_append _ hrun, Lexeme.chars,
    List.singleton_append, initializerEnd_comma_open, initializerEnd_blanks_append _ hgap, hend]
  exact hs.resume_eq _ after

/-- The statement after the brackets and the value of a declarator: brackets
without a value end the token. -/
def afterDeclarator (s : OpenStatement) (d : FieldDeclarator) : OpenStatement :=
  if d.cutsOff then (s.extend (written (arrayBrackets d.dimensions))).endToken
  else s.extend (written (arrayBrackets d.dimensions))

/-- The token goes on behind a declarator, unless it is cut off. -/
theorem InName.outside_afterDeclarator (hs : InName s) (d : FieldDeclarator) :
    Outside (s.afterDeclarator d) ∧ (d.cutsOff = false → InName (s.afterDeclarator d)) := by
  have hextended := hs.extend (written (arrayBrackets d.dimensions))
  rw [OpenStatement.afterDeclarator]
  cases d.cutsOff with
  | true => exact ⟨hextended.endToken, by simp⟩
  | false => exact ⟨hextended.toOutside, fun _ => hextended⟩

/-- After its name a declarator is read up to the separator. -/
theorem InName.read_declarator (hs : InName s) (d : FieldDeclarator) (hapart : Apart text)
    (hlaid : Laid (arrayBrackets d.dimensions ++ [d.lastMark (separatorBefore ds)]) text
      (d.textAfter (separatorBefore ds) rest)) : ∃ after,
        Laid [.mark (separatorBefore ds)] after rest ∧
          s.read text = (s.afterDeclarator d).readOpen (d.anglesAfter 0) after := by
  cases hvalue : d.value with
  | none =>
      have hangles : d.anglesAfter 0 = 0 := by rw [FieldDeclarator.anglesAfter, hvalue]
      have hmark : d.lastMark (separatorBefore ds) = .mark (separatorBefore ds) := by
        simp [FieldDeclarator.lastMark, hvalue]
      rw [hmark, FieldDeclarator.textAfter, hvalue] at hlaid
      cases hdimensions : d.dimensions with
      | zero =>
          rw [hdimensions] at hlaid
          refine ⟨text, hlaid, ?_⟩
          simp [afterDeclarator, FieldDeclarator.cutsOff, hdimensions, hangles, readOpen,
            arrayBrackets, OpenStatement.extend]
      | succ n =>
          rw [hdimensions] at hlaid
          have hhead : (Lexeme.mark (separatorBefore ds)).chars.head? ≠ some '[' := by
            rcases separatorBefore_eq ds with h | h <;> simp [h, Lexeme.chars]
          obtain ⟨after, hafter, hread⟩ :=
            read_arrayBrackets n hs.angles_eq hs.current_ne hhead hlaid
          refine ⟨after, hafter, ?_⟩
          simpa [afterDeclarator, FieldDeclarator.cutsOff, hvalue, hdimensions, hangles, readOpen]
            using hread
  | some e =>
      have hmark : d.lastMark (separatorBefore ds) = .mark '=' := by
        simp [FieldDeclarator.lastMark, hvalue]
      have htext : d.textAfter (separatorBefore ds) rest =
          e.text ++ separatorBefore ds :: rest := by rw [FieldDeclarator.textAfter, hvalue]
      rw [hmark, htext] at hlaid
      obtain ⟨u, mid, hu, hmid, hbrackets⟩ := read_lastBrackets d.dimensions hs.angles_eq
        hs.current_ne hs.plainly hapart (by simp [Lexeme.Follows]) hlaid
      generalize ht : s.extend (written (arrayBrackets d.dimensions)) = t at hu
      have hname : InName t := ht ▸ hs.extend _
      obtain ⟨start, ⟨gap, hgap, rfl⟩, hequals⟩ :=
        hu.read_equals hname.endToken.parentheses_eq hmid
      have hend := e.initializerEnd_append 0 (separatorBefore_eq ds) rest
      rw [← initializerEnd_blanks_append _ hgap] at hend
      have hafter : s.afterDeclarator d = t := by
        simp [afterDeclarator, FieldDeclarator.cutsOff, hvalue, ht]
      have hangles : d.anglesAfter 0 = openAngles 0 e.text := by
        rw [FieldDeclarator.anglesAfter, hvalue]
      refine ⟨separatorBefore ds :: rest, laid_separatorBefore ds (.nil rest), ?_⟩
      rw [hafter, hangles, ← hname.resume_eq, ← hend, hbrackets, hequals]
      rfl

/-! ## Behind a token that a comma has begun -/

/-- Whether the first of some tokens begins with a comma. -/
def CommaFirst (tokens : List String) : Prop :=
  ∀ token ∈ tokens.head?, token.toList.head? = some ','

/-- Some tokens have been read, and after them a comma that has begun a token. -/
def Behind (base : List String) (s : OpenStatement) : Prop :=
  ∃ lost, s.tokens = base ++ lost ∧ CommaFirst (lost ++ [s.current])

variable {base : List String}

theorem Behind.extend (h : Behind base s) (text : String) : Behind base (s.extend text) := by
  obtain ⟨lost, htokens, hfirst⟩ := h
  refine ⟨lost, htokens, ?_⟩
  cases lost with
  | cons token lost => exact hfirst
  | nil =>
      have hcomma := hfirst s.current rfl
      rintro token ⟨⟩
      rw [OpenStatement.extend, String.toList_append]
      cases hcurrent : s.current.toList with
      | nil => rw [hcurrent] at hcomma; cases hcomma
      | cons c cs => rwa [hcurrent] at hcomma

/-- What a comma has begun is there when the token ends. -/
theorem Behind.tokens_endToken (h : Behind base s) :
    ∃ token lost, s.endToken.tokens = base ++ token :: lost ∧ token.toList.head? = some ',' := by
  obtain ⟨lost, htokens, hfirst⟩ := h
  cases lost with
  | cons token lost =>
      have hcomma := hfirst token rfl
      rw [OpenStatement.endToken]
      split
      · exact ⟨token, lost, htokens, hcomma⟩
      split
      · exact ⟨token, lost, htokens, hcomma⟩
      · exact ⟨token, lost ++ [s.current], by simp [htokens], hcomma⟩
  | nil =>
      have hcomma := hfirst s.current rfl
      have hne : s.current ≠ "" := by
        intro h
        rw [h] at hcomma
        cases hcomma
      have hat : s.atAnnotation = false := by simp [ atAnnotation, hcomma]
      rw [List.append_nil] at htokens
      exact ⟨s.current, [], by rw [endToken_of_current_ne_empty hne hat, htokens], hcomma⟩

theorem Behind.endToken (h : Behind base s) : Behind base s.endToken := by
  obtain ⟨token, lost, htokens, hcomma⟩ := h.tokens_endToken
  refine ⟨token :: lost, htokens, ?_⟩
  rintro first ⟨⟩
  exact hcomma

theorem Behind.afterDeclarator (h : Behind base s) (d : FieldDeclarator) :
    Behind base (s.afterDeclarator d) := by
  rw [OpenStatement.afterDeclarator]
  split
  · exact (h.extend _).endToken
  · exact h.extend _

/-- A comma goes on with the token, or begins one. -/
theorem read_comma_push {l : Lexeme} {ls : List Lexeme} (hparentheses : s.parentheses = 0)
    (hlaid : Laid (.mark ',' :: l :: ls) text rest) : ∃ after, Laid (l :: ls) after rest ∧
      s.read text = (s.push ',').read after := by
  have hjoint : ∀ tail, s.boundary ',' tail = (s.push ',', skipBlanks tail) := by
    intro tail
    have hcount : s.countAngle ',' = s := rfl
    rw [boundary, if_pos (by decide), joint]
    dsimp only
    rw [if_neg (by simp), hcount, if_pos (by simp [joins, closesToken, hparentheses])]
  obtain ⟨run, after, hrun, rfl, _, hafter⟩ := hlaid
  rw [Lexeme.chars, List.singleton_append]
  by_cases hrunEmpty : run = []
  · subst hrunEmpty
    rw [List.nil_append]
    by_cases hcurrent : s.current = ""
    · refine ⟨after, hafter, ?_⟩
      rw [read_cons, step, if_neg (by decide), if_neg (by simp [hcurrent]), if_neg (by decide),
        if_neg (by decide), if_neg (by decide), if_neg (by decide), if_neg (by decide)]
    · refine ⟨skipBlanks after, hafter.of_skipBlanks, ?_⟩
      rw [read_interrupting hcurrent (by decide), hjoint]
  · refine ⟨skipBlanks after, hafter.of_skipBlanks, ?_⟩
    rw [read_blanks_append s hrun hrunEmpty (by decide) (by decide), hjoint]

/-- A word goes on with the token, or begins one. -/
theorem read_word_or {w : Word} {ls : List Lexeme} (hat : s.atAnnotation = false)
    (hlaid : Laid (.word w :: ls) text rest) : ∃ t after, (t = s ∨ t = s.endToken) ∧
      (Lexeme.word w).Fits after ∧ Laid ls after rest ∧
        s.read text = (t.extend w.text).read after := by
  obtain ⟨run, after, hrun, rfl, hfits, hafter⟩ := hlaid
  by_cases hrunEmpty : run = []
  · subst hrunEmpty
    exact ⟨s, after, .inl rfl, hfits, hafter, by rw [List.nil_append, Lexeme.chars,
      read_word_append]⟩
  · refine ⟨s.endToken, after, .inr rfl, hfits, hafter, ?_⟩
    obtain ⟨c, cs, hw, hplain, _⟩ := w.exists_cons
    obtain ⟨hblank, _, hslash, _⟩ := isPlain_iff.1 hplain
    have hword : c :: (cs ++ after) = w.text.toList ++ after := by simp [hw]
    rw [Lexeme.chars, hw, List.cons_append, read_blanks_append s hrun hrunEmpty hblank hslash,
      boundary_of_not_mayJoin (not_mayJoin_of_isPlain hplain) hat]
    dsimp only
    rw [hword, read_word_append]

/-- Behind a comma that has begun a token a name is read. -/
theorem Behind.read_name (h : Behind base s) (hs : InName s) {w : Word} {ls : List Lexeme}
    (hlaid : Laid (.word w :: ls) text rest) : ∃ t after, Behind base t ∧ InName t ∧
      (Lexeme.word w).Fits after ∧ Laid ls after rest ∧ s.read text = t.read after := by
  obtain ⟨t, after, ht, hfits, hafter, hread⟩ := read_word_or hs.plainly hlaid
  refine ⟨t.extend w.text, after, ?_, ?_, hfits, hafter, hread⟩
  · rcases ht with rfl | rfl
    · exact h.extend _
    · exact h.endToken.extend _
  · rcases ht with rfl | rfl
    · exact hs.extend _
    · refine ⟨⟨hs.endToken.parentheses_eq, hs.endToken.angles_eq, ?_⟩, ?_⟩
      · exact w.notAt_extend (current_endToken s)
      · simp [OpenStatement.extend, w.ne_empty]

/-- A comma is read between tokens or goes on with one, and stands behind those
that have ended. -/
theorem Outside.push_comma (hs : Outside s)
    (h : s.tokens = base ∧ s.current = "" ∨ Behind base s) :
    Behind base (s.push ',') ∧ InName (s.push ',') := by
  have hne : (s.push ',').current ≠ "" := by simp [push]
  refine ⟨?_, ⟨hs.parentheses_eq, hs.angles_eq, ?_⟩, hne⟩
  · rcases h with ⟨rfl, hcurrent⟩ | h
    · refine ⟨[], by simp [push], ?_⟩
      rintro token ⟨⟩
      simp [push, hcurrent]
    · rw [push_eq_extend]
      exact h.extend _
  · by_cases hcurrent : s.current = ""
    · simp [ atAnnotation, push, hcurrent]
    · rw [push_eq_extend, atAnnotation_extend hcurrent, hs.plainly]

/-- Behind a comma that begins a token, the statement is read to its end, and the
tokens before it stay. -/
theorem Outside.readOpen_behind (ds : List FieldDeclarator) {n : Nat} {mid : List Char}
    (hs : Outside s) (h : s.tokens = base ∧ s.current = "" ∨ Behind base s)
    (hopen : n ≠ 0 → s.current ≠ "") (hseparator : Laid [.mark (separatorBefore ds)] text mid)
    (hlisted : Listed ds mid rest) : ∃ lost after, CommaFirst lost ∧ Laid [] after rest ∧
      s.readOpen n text = some (⟨base ++ lost, .semicolon⟩, after) := by
  induction ds generalizing s n text mid with
  | nil =>
      obtain ⟨after, hafter, hread⟩ := hs.readOpen_semicolon n hseparator
      have hafter' : Laid [] after rest := hafter.trans hlisted
      rcases h with ⟨rfl, hcurrent⟩ | h
      · refine ⟨[], after, by simp [CommaFirst], hafter', ?_⟩
        rw [hread, endToken_of_current_eq_empty hcurrent, List.append_nil]
      · obtain ⟨token, lost, htokens, hcomma⟩ := h.tokens_endToken
        refine ⟨token :: lost, after, ?_, hafter', by rw [hread, htokens]⟩
        rintro first ⟨⟩
        exact hcomma
  | cons d ds ih =>
      obtain ⟨next, hlaid, hnext⟩ := hlisted
      cases n with
      | succ n =>
          have hcurrent := hopen (Nat.succ_ne_zero n)
          obtain ⟨after, hafter, hread⟩ :=
            InName.readOpen_succ ⟨hs, hcurrent⟩ n d hseparator hlaid
          rw [hread]
          exact ih hs h (fun _ => hcurrent) hafter hnext
      | zero =>
          obtain ⟨start, hstart, hcomma⟩ :=
            read_comma_push hs.parentheses_eq (hseparator.trans hlaid)
          obtain ⟨hbehind, hpushed⟩ := hs.push_comma h
          obtain ⟨t, inner, ht, hname, hfits, hinner, hword⟩ := hbehind.read_name hpushed hstart
          obtain ⟨after, hafter, hread⟩ := hname.read_declarator d hfits hinner
          obtain ⟨houtside, hinName⟩ := hname.outside_afterDeclarator d
          have hcurrent : d.anglesAfter 0 ≠ 0 → (t.afterDeclarator d).current ≠ "" := by
            intro hangles
            cases hcuts : d.cutsOff with
            | false => exact (hinName hcuts).current_ne
            | true => exact absurd (d.anglesAfter_of_cutsOff hcuts) hangles
          obtain ⟨lost, last, hlost, hlast, hrest⟩ :=
            ih houtside (.inr (ht.afterDeclarator d)) hcurrent hafter hnext
          refine ⟨lost, last, hlost, hlast, ?_⟩
          rw [readOpen, if_pos rfl, hcomma, hword, hread, hrest]

end OpenStatement

/-! ## One declarator after the other -/

/-- Declarators without their values, with a comma before each. -/
def headings : List FieldDeclarator → String
  | [] => ""
  | d :: ds => "," ++ written d.heading ++ headings ds

namespace OpenStatement

/-- What is read goes on with the token by the declarators `ds`; what else comes
to it is lost behind a comma. -/
def Gathers (s : OpenStatement) (ds : List FieldDeclarator) (rest : List Char)
    (result : Option (Statement (List Char) × List Char)) : Prop :=
  ∃ lost after, CommaFirst lost ∧ Laid [] after rest ∧
    result = some (⟨s.tokens ++ (s.current ++ headings ds) :: lost, .semicolon⟩, after)

/-- At a separator reading goes on with those declarators that are recorded. -/
def ReadsOn (ds : List FieldDeclarator) (rest : List Char) : Prop :=
  ∀ (s : OpenStatement) (n : Nat) (text mid : List Char), InName s →
    Laid [.mark (separatorBefore ds)] text mid → Listed ds mid rest →
      Gathers s (recorded n ds) rest (s.readOpen n text)

/-- After the name of a declarator reading goes on with it, and with those that
are recorded after it. -/
theorem InName.read_rest (hs : InName s) {d : FieldDeclarator} {mid : List Char}
    (hreads : ReadsOn ds rest) (hapart : Apart text)
    (hlaid : Laid (arrayBrackets d.dimensions ++ [d.lastMark (separatorBefore ds)]) text
      (d.textAfter (separatorBefore ds) mid)) (hlisted : Listed ds mid rest) :
    Gathers (s.extend (written (arrayBrackets d.dimensions)))
      (if d.cutsOff then [] else recorded (d.anglesAfter 0) ds) rest (s.read text) := by
  obtain ⟨after, hafter, hread⟩ := hs.read_declarator d hapart hlaid
  have hextended := hs.extend (written (arrayBrackets d.dimensions))
  rw [hread]
  cases hcuts : d.cutsOff with
  | false =>
      rw [afterDeclarator, hcuts]
      exact hreads _ _ after mid hextended hafter hlisted
  | true =>
      rw [afterDeclarator, hcuts, if_pos rfl, if_pos rfl, d.anglesAfter_of_cutsOff hcuts]
      obtain ⟨lost, last, hlost, hlast, hrest⟩ := hextended.endToken.readOpen_behind ds (n := 0)
        (.inl ⟨rfl, current_endToken _⟩) (by simp) hafter hlisted
      refine ⟨lost, last, hlost, hlast, ?_⟩
      rw [hrest, endToken_of_current_ne_empty hextended.current_ne hextended.plainly]
      simp [headings]

/-- **Declarators are read one after the other**, those that are recorded. -/
theorem readsOn (ds : List FieldDeclarator) (rest : List Char) : ReadsOn ds rest := by
  induction ds with
  | nil =>
      intro s n text mid hs hseparator hlisted
      obtain ⟨after, hafter, hread⟩ := hs.readOpen_semicolon n hseparator
      refine ⟨[], after, by simp [CommaFirst], hafter.trans hlisted, ?_⟩
      rw [hread, endToken_of_current_ne_empty hs.current_ne hs.plainly]
      cases n <;> simp [recorded, headings]
  | cons d ds ih =>
      rintro s n text mid hs hseparator ⟨next, hlaid, hnext⟩
      cases n with
      | succ n =>
          obtain ⟨after, hafter, hread⟩ := hs.readOpen_succ n d hseparator hlaid
          rw [hread, recorded]
          exact ih s _ after next hs hafter hnext
      | zero =>
          obtain ⟨start, hfits, hstart, hword⟩ := read_comma_word d.name.toWord hs.parentheses_eq
            hs.current_ne (hseparator.trans hlaid)
          obtain ⟨lost, after, hlost, hafter, hread⟩ :=
            (hs.extend ("," ++ d.name.text)).read_rest ih hfits hstart hnext
          refine ⟨lost, after, hlost, hafter, ?_⟩
          rw [readOpen, if_pos rfl, hword, hread]
          simp [recorded, headings, FieldDeclarator.heading, written_word, OpenStatement.extend,
            String.append_assoc]

end OpenStatement

/-! ## Declarations of fields -/

/-- Declarators without their values, with a comma between any two. -/
def joinedHeadings : List FieldDeclarator → String
  | [] => ""
  | d :: ds => written d.heading ++ headings ds

namespace FieldDeclaration

/-- The fields that are recorded of a declaration. -/
def fields (f : FieldDeclaration) : List Member :=
  ((recorded 0 f.declarators).filter fun d => d.name.isDeclared).map f.field

/-- A declaration of fields is one statement.  The names that are recorded come
to one token. -/
theorem scan_eq (f : FieldDeclaration) {text rest : List Char} (hlaid : f.LaidOut text rest) :
    ∃ lost after, CommaFirst lost ∧ Laid [] after rest ∧
      scan text = some (⟨f.modifiers.map Modifier.text ++
        f.type.text :: joinedHeadings (recorded 0 f.declarators) :: lost, .semicolon⟩, after) := by
  obtain ⟨mid, hhead, next, hfirst, hmore⟩ := hlaid
  obtain ⟨t, before, ht, hbefore, hscan⟩ := (takes_modifiedType f.modifiers f.type).scan_eq
    (l := .word f.first.name.toWord) trivial (modifiedType_head? f.modifiers f.type) (by simp)
    (hhead.trans hfirst)
  obtain ⟨inner, hfits, hinner, hword⟩ := ht.read_word hbefore
  have hname : InName (((start.takeAll (f.modifiers.map Modifier.text)).take f.type.text).extend
      f.first.name.text) :=
    ⟨⟨rfl, rfl, f.first.name.notAt_extend rfl⟩, by
      simpa [extend, take, takeAll, start] using f.first.name.ne_empty⟩
  obtain ⟨lost, after, hlost, hafter, hread⟩ :=
    hname.read_rest (readsOn f.more rest) hfits hinner hmore
  refine ⟨lost, after, hlost, hafter, ?_⟩
  rw [hscan, hword, hread]
  simp [declarators, recorded, joinedHeadings, FieldDeclarator.heading, written_word, extend, take,
    takeAll, start, String.append_assoc]

end FieldDeclaration

/-! ## What the tokens declare -/

theorem FieldDeclarator.comma_not_mem (d : FieldDeclarator) : ',' ∉ (written d.heading).toList := by
  have hbrackets : ∀ n, ',' ∉ (written (arrayBrackets n)).toList := by
    intro n
    induction n with
    | zero => simp [arrayBrackets]
    | succ n ih => simpa [arrayBrackets, Lexeme.chars] using ih
  rw [heading, written_word, String.toList_append, List.mem_append, not_or]
  exact ⟨d.name.not_mem (by decide), hbrackets d.dimensions⟩

/-- A list of declarators is cut into the declarators. -/
theorem nameList_joinedHeadings (d : FieldDeclarator) (ds : List FieldDeclarator) :
    nameList (joinedHeadings (d :: ds)) = (d :: ds).map fun e => written e.heading := by
  induction ds generalizing d with
  | nil => simp [nameList, joinedHeadings, headings, pieces_of_not_mem d.comma_not_mem,
      String.ofList_toList, -toList_written]
  | cons e ds ih =>
      have hrest := ih e
      have htext : (joinedHeadings (d :: e :: ds)).toList =
          (written d.heading).toList ++ ',' :: (joinedHeadings (e :: ds)).toList := by
        simp [joinedHeadings, headings]
      rw [nameList] at hrest ⊢
      rw [htext, pieces_append d.comma_not_mem, List.map_cons, hrest, String.ofList_toList]
      rfl

theorem FieldDeclarator.isDeclarable_eq (d : FieldDeclarator) :
    isDeclarable (written d.heading) = d.name.isDeclared := by
  obtain ⟨hdrop, _⟩ := dropTrailing_append d.name.isArrayBracket_eq_false
    (isArrayBracket_of_mem d.dimensions)
  rw [isDeclarable, heading, written_word, String.toList_append, hdrop, Name.isDeclared]

theorem FieldDeclaration.variablesOf_eq (f : FieldDeclaration) (d : FieldDeclarator)
    (ds : List FieldDeclarator) :
    (modifiersOf f.modifiers).variablesOf f.type.text (joinedHeadings (d :: ds)) =
      ((d :: ds).filter fun e => e.name.isDeclared).map f.field := by
  have hkept : (d :: ds).filter (isDeclarable ∘ fun e => written e.heading) =
      (d :: ds).filter fun e => e.name.isDeclared := by
    apply List.filter_congr
    intro e _
    rw [Function.comp_apply, e.isDeclarable_eq]
  rw [Modifiers.variablesOf, nameList_joinedHeadings, List.filter_map, hkept, List.map_map]
  apply List.map_congr_left
  intro e _
  simp [Modifiers.member, Member.declare, FieldDeclarator.heading, written_word,
    Word.declare_brackets, FieldDeclaration.field]

/-- The text of names and brackets is no parenthesis. -/
theorem joinedHeadings_ne (d : FieldDeclarator) (ds : List FieldDeclarator) :
    joinedHeadings (d :: ds) ≠ "(" := by
  intro h
  obtain ⟨c, cs, hname, hplain, _⟩ := d.name.exists_cons
  have hchars := congrArg String.toList h
  rw [joinedHeadings, FieldDeclarator.heading, written_word, String.append_assoc,
    String.toList_append, hname, List.cons_append] at hchars
  have hopen : c = '(' := (List.cons.inj hchars).1
  rw [hopen] at hplain
  exact absurd hplain (by decide)

namespace FieldDeclaration

/-- In the body of a type the recorded names are declared, whatever is behind a
comma. -/
theorem reading (f : FieldDeclaration) {lost : List String} (hlost : CommaFirst lost) :
    Reading.ofTokens .typeBody (f.modifiers.map Modifier.text ++
      f.type.text :: joinedHeadings (recorded 0 f.declarators) :: lost) =
        .declaring (.fields f.fields) := by
  obtain ⟨ds, hrecorded⟩ : ∃ ds, recorded 0 f.declarators = f.first :: ds := ⟨_, rfl⟩
  have hparenthesis : lost.head? ≠ some "(" := by
    intro h
    exact absurd (hlost "(" h) (by decide)
  rw [Reading.ofTokens, Reading.ofTokensAfter_modifiers _ _ _ _ _ (by simp),
    Reading.ofTokensAfter_member f.type.free f.type.not_head?_angle (by simp), fields, hrecorded,
    Reading.member, ← modifiersOf,
    Modifiers.declare_variables (joinedHeadings_ne f.first ds) hparenthesis, f.variablesOf_eq]
  simp

/-- Every declarator is recorded as a field only if the names are identifiers to
the readers and every declarator but the last ends at its comma. -/
theorem fields_eq_iff (f : FieldDeclaration) :
    f.fields = f.declarators.map f.field ↔
      (∀ d ∈ f.declarators, d.name.isDeclared = true) ∧
        f.declarators.dropLast.all FieldDeclarator.endsAtComma = true := by
  have hall : recorded 0 f.declarators = f.declarators ↔
      f.declarators.dropLast.all FieldDeclarator.endsAtComma = true :=
    recorded_eq_self_iff f.first f.more
  rw [fields, ← hall]
  have hsublist := recorded_sublist 0 f.declarators
  have hkept := (recorded 0 f.declarators).filter_sublist (p := fun d => d.name.isDeclared)
  constructor
  · intro h
    have hlength := congrArg List.length h
    rw [List.length_map, List.length_map] at hlength
    have hfiltered := (hkept.trans hsublist).eq_of_length hlength
    have hrecorded := hsublist.eq_of_length_le (hlength ▸ hkept.length_le)
    rw [hrecorded, List.filter_eq_self] at hfiltered
    exact ⟨hfiltered, hrecorded⟩
  · rintro ⟨hdeclared, hrecorded⟩
    rw [hrecorded, List.filter_eq_self.2 hdeclared]

/-- **Fields are declared one after the other.**  The declarators that are
recorded, and whose names are identifiers to the readers, are added in order as
fields: each with the type and its own brackets, and with what the modifiers
say.  These are all of them only if all names are identifiers to the readers
and every declarator but the last ends at its comma. -/
theorem declares_fields (f : FieldDeclaration) {p : Progress} (hlevel : p.nesting.level = .typeBody)
    (withLocals : Bool) {text rest : List Char} (hlaid : f.LaidOut text rest) :
    p.read withLocals text =
        (p.mapRecord (TypeRecord.addFields f.fields)).read withLocals rest ∧
      (f.fields = f.declarators.map f.field ↔
        (∀ d ∈ f.declarators, d.name.isDeclared = true) ∧
          f.declarators.dropLast.all FieldDeclarator.endsAtComma = true) := by
  refine ⟨?_, f.fields_eq_iff⟩
  obtain ⟨lost, after, hlost, ⟨run, hrun, rfl⟩, hscan⟩ := f.scan_eq hlaid
  rw [Progress.read_fields withLocals hscan (hlevel ▸ f.reading hlost),
    Progress.read_blanks_append withLocals hrun]

/-- The value ` x > f(1, ',') /* , */ `. -/
def compared : Value where
  text := " x > f(1, ".toList ++ ('\'' :: ([','] ++ '\'' :: (") ".toList ++
    ('/' :: '*' :: (" , ".toList ++ '*' :: '/' :: (" ".toList ++ []))))))
  closed := .code_append (by decide) (.literal (by decide) (.plain (by decide) (by decide) .nil)
    (.code_append (by decide) (.blockComment (by decide) (.code_append (by decide) .nil))))
  formed := by
    have hcode : code (" x > f(1, ".toList ++ ('\'' :: ([','] ++ '\'' :: (") ".toList ++
        ('/' :: '*' :: (" , ".toList ++ '*' :: '/' :: (" ".toList ++ []))))))) =
          " x > f".toList ++ ('(' :: (("1, ".toList ++ []) ++ ')' :: ("  ".toList ++ []))) := by
      decide +kernel
    rw [hcode]
    exact .plain_append (by decide) (.group (k := ('(', ')')) (by decide)
      (.other_append (by decide) .nil) (.plain_append (by decide) .nil))

/-- The value ` new Map<K, V>() `. -/
def created : Value where
  text := " new Map<K, V>() ".toList ++ []
  closed := .code_append (by decide) .nil
  formed := by
    have hcode : code (" new Map<K, V>() ".toList ++ []) = " new Map".toList ++
        ('<' :: (("K, V".toList ++ []) ++ '>' :: ('(' :: ([] ++ ')' :: (" ".toList ++ []))))) := by
      decide +kernel
    rw [hcode]
    exact .plain_append (by decide) (.arguments (.other_append (by decide) .nil) (by decide)
      (.group (k := ('(', ')')) (by decide) .nil (.plain_append (by decide) .nil)))

/-- The declarator `a[]` with the value `compared`. -/
def declaratorA : FieldDeclarator := ⟨⟨⟨"a", .refl true⟩, .refl false⟩, 1, some compared⟩

/-- The declarator `b` with the value `created`. -/
def declaratorB : FieldDeclarator := ⟨⟨⟨"b", .refl true⟩, .refl false⟩, 0, some created⟩

/-- The declarator `c[][]`. -/
def declaratorC : FieldDeclarator := ⟨⟨⟨"c", .refl true⟩, .refl false⟩, 2, none⟩

/-- A declaration of three fields. -/
def three : FieldDeclaration where
  modifiers := [⟨"private", .refl true⟩, ⟨"static", .refl true⟩]
  type := ⟨⟨⟨⟨⟨"int", .refl true⟩, .refl false⟩, []⟩, none⟩, 1⟩
  first := declaratorA
  more := [declaratorB, declaratorC]

/-- What is written for `three`. -/
def threeText : String :=
  "private static int [ ] a [ ] = x > f(1, ',') /* , */ , b = new Map<K, V>() , c [ ] [ ] ;"

theorem laidOut_three : three.LaidOut threeText.toList [] := by
  have hlaid : ∀ (ls : List Lexeme) (rest : List Char), ls.all Lexeme.isFormed = true →
      (∀ c ∈ rest.head?, isBlank c = true) → Laid ls (spaced ls ++ rest) rest :=
    fun ls rest hformed => laid_spaced_append (isMark_of_all_isFormed hformed)
  have hblank : ∀ e : Value, e.text.head? = some ' ' → ∀ rest : List Char,
      ∀ c ∈ (e.text ++ rest).head?, isBlank c = true := by
    intro e he rest c hc
    rw [List.head?_append, he] at hc
    cases hc
    decide
  have hc := (hlaid (declaratorC.heading ++ [.mark ';']) [] (by decide) (by simp)).blank
    (c := ' ') (by decide)
  generalize hlast : ' ' :: (spaced (declaratorC.heading ++ [.mark ';']) ++ []) = last at hc
  have hb := (hlaid (declaratorB.heading ++ [.mark '=']) (created.text ++ ',' :: last) (by decide)
    (hblank created (by decide +kernel) _)).blank (c := ' ') (by decide)
  generalize hmid : ' ' :: (spaced (declaratorB.heading ++ [.mark '=']) ++
    (created.text ++ ',' :: last)) = mid at hb
  have ha := (hlaid (declaratorA.heading ++ [.mark '=']) (compared.text ++ ',' :: mid) (by decide)
    (hblank compared (by decide +kernel) _)).blank (c := ' ') (by decide)
  have hhead := hlaid (modifierLexemes three.modifiers ++ three.type.lexemes)
    (' ' :: (spaced (declaratorA.heading ++ [.mark '=']) ++ (compared.text ++ ',' :: mid)))
    (by decide) (by simp; decide)
  have htext : threeText.toList = spaced (modifierLexemes three.modifiers ++ three.type.lexemes) ++
      ' ' :: (spaced (declaratorA.heading ++ [.mark '=']) ++ (compared.text ++ ',' :: mid)) := by
    rw [← hmid, ← hlast]
    decide +kernel
  rw [htext]
  exact ⟨_, hhead, mid, ha, last, hb, [], hc, .nil []⟩

theorem declares_fields_three :
    Block.insideClass.nesting.level = .typeBody ∧ three.LaidOut threeText.toList [] ∧
      Block.insideClass.read false threeText.toList =
        (Block.insideClass.mapRecord (TypeRecord.addFields
          [⟨⟨"a", some "int[][]", false⟩, .privateAccess, true⟩,
            ⟨⟨"b", some "int[]", false⟩, .privateAccess, true⟩,
            ⟨⟨"c", some "int[][][]", false⟩, .privateAccess, true⟩])).read false [] := by
  have hlevel : Block.insideClass.nesting.level = .typeBody := by decide +kernel
  obtain ⟨hread, hiff⟩ := declares_fields three hlevel false laidOut_three
  have hall := hiff.2 ⟨by decide +kernel, by decide +kernel⟩
  have hfields : three.declarators.map three.field =
      [⟨⟨"a", some "int[][]", false⟩, .privateAccess, true⟩,
        ⟨⟨"b", some "int[]", false⟩, .privateAccess, true⟩,
        ⟨⟨"c", some "int[][][]", false⟩, .privateAccess, true⟩] := by decide +kernel
  rw [hall, hfields] at hread
  exact ⟨hlevel, laidOut_three, hread⟩

/-- The fields of the types of a text, by name and type. -/
def fieldsOf (text : String) : List (List (String × Option String)) :=
  (outline false text).map fun record => record.fields.map fun field => (field.name, field.type)

/-- A comma right behind the brackets of a name, and an angle bracket that
compares, lose the declarators after them. -/
theorem not_recorded_after :
    fieldsOf "class A \x7b int a[], b; \x7d" = [[("a", some "int[]")]] ∧
      fieldsOf "class A \x7b int a = x < y, b; \x7d" = [[("a", some "int")]] ∧
        fieldsOf "class A \x7b int a = x < y, b = z > w, c; \x7d" =
            [[("a", some "int"), ("c", some "int")]] ∧
          fieldsOf "class A \x7b int a[] = \x7b 1, 2 \x7d, b = x > y, c; \x7d" =
            [[("a", some "int[]"), ("b", some "int"), ("c", some "int")]] := by
  decide +kernel

end FieldDeclaration

end JavaOutline
