import JavaOutline.Proofs.Grammar.Variables

/-!
# JavaOutline.Proofs.Grammar.Spelling

Lexemes between angle brackets.  Everything there joins the token except a
word after a word, which begins a token of its own.  So what is read is the
text with one blank between two words, and none elsewhere (`spelled`), cut
at its blanks (`OpenStatement.spell`).

* `read_betweenAngles` — reading between angle brackets;
* `Between.read_typeTail` — reading a type from the end of its name on;
* `takes_spelled` — the tokens of a type;
* `spelled_of_betweenAngles` — where the first blank is.
-/

namespace JavaOutline

open Text OpenStatement

/-! ## Spelled lexemes -/

/-- Lexemes in angle brackets; no brackets stand around nothing. -/
def enclosed : List Lexeme → List Lexeme
  | [] => []
  | l :: ls => .mark '<' :: (l :: ls ++ [.mark '>'])

/-- Lexemes written with one blank between two words, and none elsewhere;
`named` says that a word comes before them. -/
def spelled : Bool → List Lexeme → List Char
  | _, [] => []
  | named, .word w :: ls => (if named then [' '] else []) ++ (w.text.toList ++ spelled true ls)
  | _, .literal l :: ls => (Lexeme.literal l).chars ++ spelled false ls
  | _, .mark c :: ls => c :: spelled false ls

theorem spelled_append_mark (named : Bool) (xs : List Lexeme) (c : Char) (ys : List Lexeme) :
    spelled named (xs ++ .mark c :: ys) = spelled named xs ++ c :: spelled false ys := by
  induction xs generalizing named with
  | nil => simp [spelled]
  | cons x xs ih => cases x <;> simp [spelled, ih]

/-- There is no blank in a dotted name. -/
theorem spelled_dotted (ws : List Word) (ls : List Lexeme) :
    spelled true (dotted ws ++ ls) = (written (dotted ws)).toList ++ spelled true ls := by
  induction ws with
  | nil => simp [dotted]
  | cons w ws ih => simp [dotted, spelled, ih, Lexeme.chars]

theorem blank_not_mem_dotted (ws : List Word) : ' ' ∉ (written (dotted ws)).toList := by
  induction ws with
  | nil => simp [dotted]
  | cons w ws ih =>
      have hword := w.not_mem (c := ' ') (by decide)
      simpa [dotted, Lexeme.chars, hword] using ih

theorem spelled_arrayBrackets (named : Bool) (n : Nat) :
    spelled named (arrayBrackets n) = (written (arrayBrackets n)).toList := by
  induction n generalizing named with
  | zero => rfl
  | succ n ih => simp [arrayBrackets, spelled, ih, Lexeme.chars]

/-! ## Tokens with blanks between them -/

namespace OpenStatement

/-- The statement with more text read into its tokens, blanks between
them. -/
def spell (s : OpenStatement) : List Char → OpenStatement
  | [] => s
  | c :: cs =>
    if c = ' ' then spell { s with tokens := s.tokens ++ [s.current], current := "" } cs
    else spell (s.push c) cs

theorem spell_append (s : OpenStatement) (cs ds : List Char) :
    s.spell (cs ++ ds) = (s.spell cs).spell ds := by
  induction cs generalizing s with
  | nil => rfl
  | cons c cs ih =>
      rw [List.cons_append, spell, spell]
      split <;> rw [ih]

theorem spell_of_not_mem (s : OpenStatement) {cs : List Char} (h : ' ' ∉ cs) :
    s.spell cs = s.extend (String.ofList cs) := by
  induction cs generalizing s with
  | nil => simp [spell, extend]
  | cons c cs ih =>
      rw [List.mem_cons, not_or] at h
      rw [spell, if_neg (Ne.symm h.1), ih _ h.2, push_eq_extend, extend_extend]
      congr 1
      apply String.toList_inj.1
      simp

theorem spell_word (s : OpenStatement) (w : Word) : s.spell w.text.toList = s.extend w.text := by
  rw [spell_of_not_mem s (w.not_mem (by decide)), String.ofList_toList]

@[simp] theorem parentheses_spell (s : OpenStatement) (cs : List Char) :
    (s.spell cs).parentheses = s.parentheses := by
  induction cs generalizing s with
  | nil => rfl
  | cons c cs ih =>
      rw [spell]
      split <;> exact ih _

@[simp] theorem angles_spell (s : OpenStatement) (cs : List Char) :
    (s.spell cs).angles = s.angles := by
  induction cs generalizing s with
  | nil => rfl
  | cons c cs ih =>
      rw [spell]
      split <;> exact ih _

/-- The tokens that are spelled are the pieces between the blanks. -/
theorem tokens_spell (s : OpenStatement) (cs : List Char) :
    (s.spell cs).tokens ++ [(s.spell cs).current] =
      s.tokens ++ (match pieces ' ' cs with
        | [] => []
        | piece :: more => (s.current ++ String.ofList piece) :: more.map String.ofList) := by
  induction cs generalizing s with
  | nil => simp [spell, pieces]
  | cons c cs ih =>
      obtain ⟨piece, more, hpieces⟩ := List.exists_cons_of_ne_nil (pieces_ne_nil ' ' cs)
      rw [spell, pieces]
      split
      · rw [ih]
        simp [hpieces]
      · rw [ih]
        simp only [hpieces, push, List.append_cancel_left_eq, List.cons.injEq, and_true]
        apply String.toList_inj.1
        simp

theorem spell_angles (s : OpenStatement) (n : Int) (cs : List Char) :
    ({ s with angles := n } : OpenStatement).spell cs = { s.spell cs with angles := n } := by
  induction cs generalizing s with
  | nil => rfl
  | cons c cs ih =>
      rw [spell, spell]
      split
      · exact ih { s with tokens := s.tokens ++ [s.current], current := "" }
      · exact ih (s.push c)

end OpenStatement

/-! ## Between angle brackets -/

/-- Whether lexemes can stand between angle brackets, inside `depth`
brackets of their own, words side by side included; `named` says that a
word comes before them. -/
def betweenAngles : Nat → Bool → List Lexeme → Bool
  | depth, _, [] => depth == 0
  | depth, named, .word w :: ls =>
    !(named && mayPrecedeTypeParameters w.text) && betweenAngles depth true ls
  | _, _, .literal _ :: _ => false
  | depth, _, .mark c :: ls =>
    if c = '<' then betweenAngles (depth + 1) false ls
    else if c = '>' then depth != 0 && betweenAngles (depth - 1) false ls
    else ['.', ',', '?', '[', ']'].contains c && betweenAngles depth false ls

theorem betweenAngles_mark {depth : Nat} {named : Bool} {c : Char} {ls : List Lexeme}
    (h : betweenAngles depth named (.mark c :: ls) = true) :
    ∃ d, AngleMark c depth d ∧ betweenAngles d false ls = true := by
  rw [betweenAngles] at h
  exact AngleMark.of_accepts h

theorem AngleMark.isMark {c : Char} {depth d : Nat} (h : AngleMark c depth d) :
    isMark c = true := by
  have hmarks : ∀ e ∈ ['<', '>', '.', ',', '?', '[', ']'], JavaOutline.isMark e = true := by decide
  exact hmarks c h.mem

theorem isMark_of_betweenAngles {depth : Nat} {named : Bool} {ls : List Lexeme}
    (h : betweenAngles depth named ls = true) : ∀ c, Lexeme.mark c ∈ ls → isMark c = true := by
  induction ls generalizing depth named with
  | nil => simp
  | cons x ls ih =>
      cases x with
      | literal q => simp [betweenAngles] at h
      | word w =>
          simp only [betweenAngles, Bool.and_eq_true] at h
          simpa using ih h.2
      | mark d =>
          obtain ⟨depth', hd, hls⟩ := betweenAngles_mark h
          intro c hc
          rcases List.mem_cons.1 hc with hc | hc
          · cases hc
            exact hd.isMark
          · exact ih hls c hc

/-- The words that may stand before type parameters are plain. -/
theorem not_mayPrecedeTypeParameters_of_not_isPlain {word : String} {c : Char}
    (hc : c ∈ word.toList) (hplain : isPlain c = false) :
    mayPrecedeTypeParameters word = false := by
  cases h : mayPrecedeTypeParameters word with
  | false => rfl
  | true =>
      have hwords : ∀ other ∈ ["public", "protected", "private", "static", "final", "default"] ++
          inertWords, ∀ d ∈ other.toList, isPlain d = true := by decide
      have hin : word ∈ ["public", "protected", "private", "static", "final", "default"] ++
          inertWords := by
        rw [mayPrecedeTypeParameters, isInert, Bool.or_eq_true, List.contains_iff_mem,
          List.contains_iff_mem] at h
        exact List.mem_append.2 h
      rw [hwords word hin c hc] at hplain
      cases hplain

namespace OpenStatement

/-- A statement inside angle brackets: its token is open and goes on with a
mark, right after a mark or after a word. -/
structure Between (named : Bool) (s : OpenStatement) (text : List Char) : Prop where
  opened : s.current ≠ ""
  plainly : s.atAnnotation = false
  unmodified : mayPrecedeTypeParameters s.current = false
  apart : named = true → Apart text
  tight : named = false → (∃ c ∈ s.current.toList, isPlain c = false) ∧ skipBlanks text = text

variable {s : OpenStatement} {l : Lexeme} {ls more : List Lexeme} {text rest : List Char}

/-- A word goes on with the token, or begins a new one after a word. -/
theorem Between.read_word {named : Bool} {w : Word} (hs : Between named s text)
    (hword : (named && mayPrecedeTypeParameters w.text) = false)
    (hlaid : Laid (.word w :: ls) text rest) : ∃ after,
      Between true (s.spell (spelled named [.word w])) after ∧ Laid ls after rest ∧
        s.read text = (s.spell (spelled named [.word w])).read after := by
  cases named with
  | false =>
      obtain ⟨⟨c, hc, hplain⟩, htight⟩ := hs.tight rfl
      obtain ⟨after, hfits, hls, hread⟩ := read_joined_word hlaid htight
      have hspell : s.spell (spelled false [.word w]) = s.extend w.text := by
        simp [spelled, spell_word]
      rw [hspell]
      refine ⟨after, ⟨extend_ne_empty hs.opened _, ?_, ?_, fun _ => hfits, by simp⟩, hls, hread⟩
      · rw [atAnnotation_extend hs.opened, hs.plainly]
      · exact not_mayPrecedeTypeParameters_of_not_isPlain (c := c) (by simp [extend, hc]) hplain
  | true =>
      have hstands := Stands.of_apart hs.plainly (hs.apart rfl)
      obtain ⟨after, hfits, hls, hread⟩ := hstands.read_word hlaid
      have hspell : s.spell (spelled true [.word w]) = s.endToken.extend w.text := by
        rw [endToken_of_current_ne_empty hs.opened hs.plainly]
        simp [spelled, spell, spell_word]
      have hempty : s.endToken.current = "" := current_endToken s
      rw [hspell]
      refine ⟨after, ⟨?_, w.notAt_extend hempty, ?_, fun _ => hfits, by simp⟩, hls, hread⟩
      · simp [extend, w.ne_empty]
      · simpa [extend] using hword

/-- A mark goes on with the token. -/
theorem Between.read_mark {named : Bool} {c : Char} (hs : Between named s text)
    (hjoin : mayJoin c = true) (hopen : 0 < angleDepth s.angles c)
    (hlaid : Laid (.mark c :: l :: ls) text rest) : ∃ after,
      Between false { s.push c with angles := angleDepth s.angles c } after ∧
        Laid (l :: ls) after rest ∧ s.read text =
          ({ s.push c with angles := angleDepth s.angles c } : OpenStatement).read after := by
  have hplain : isPlain c = false := by
    cases h : isPlain c with
    | false => rfl
    | true => rw [not_mayJoin_of_isPlain h] at hjoin; cases hjoin
  obtain ⟨after, hafter, htight, hread⟩ :=
    read_joined_open hs.opened hs.unmodified hjoin hopen hlaid
  have hmark : c ∈ (s.push c).current.toList := by simp [push]
  have hextend : s.push c = s.extend (String.singleton c) := push_eq_extend s c
  refine ⟨after, ⟨?_, ?_, not_mayPrecedeTypeParameters_of_not_isPlain hmark hplain, by simp,
    fun _ => ⟨⟨c, hmark, hplain⟩, htight⟩⟩, hafter, hread⟩
  · rw [hextend]
    exact extend_ne_empty hs.opened _
  · rw [hextend]
    exact (atAnnotation_extend hs.opened _).trans hs.plainly

/-- Between angle brackets everything but a word after a word stays
together. -/
theorem read_betweenAngles {depth : Nat} {named : Bool}
    (hbetween : betweenAngles depth named ls = true) (hangles : s.angles = depth + 1)
    (hs : Between named s text) (hlaid : Laid (ls ++ l :: more) text rest) : ∃ after named',
      Between named' (s.spell (spelled named ls)) after ∧ Laid (l :: more) after rest ∧
        s.read text =
          ({ s.spell (spelled named ls) with angles := 1 } : OpenStatement).read after := by
  induction ls generalizing s text depth named with
  | nil =>
      simp only [betweenAngles, beq_iff_eq] at hbetween
      subst hbetween
      refine ⟨text, named, hs, hlaid, ?_⟩
      obtain ⟨tokens, current, parentheses, angles⟩ := s
      simp only [Int.natCast_zero, Int.zero_add] at hangles
      simp [hangles, spelled, spell]
  | cons x ls ih =>
      cases x with
      | literal q => simp [betweenAngles] at hbetween
      | word w =>
          simp only [betweenAngles, Bool.and_eq_true, Bool.not_eq_true'] at hbetween
          obtain ⟨mid, hword, hmid, hread⟩ := hs.read_word hbetween.1 hlaid
          have hopen : (s.spell (spelled named [.word w])).angles = depth + 1 := by simp [hangles]
          obtain ⟨after, named', hafter, hlast, hread'⟩ := ih hbetween.2 hopen hword hmid
          have hspell : (s.spell (spelled named [.word w])).spell (spelled true ls) =
              s.spell (spelled named (.word w :: ls)) := by
            rw [← spell_append]
            simp [spelled]
          rw [hspell] at hafter hread'
          exact ⟨after, named', hafter, hlast, hread.trans hread'⟩
      | mark c =>
          obtain ⟨d, hc, hls⟩ := betweenAngles_mark hbetween
          have hopen : angleDepth s.angles c = d + 1 := hangles ▸ hc.angleDepth_eq
          obtain ⟨first, others, hsplit⟩ :=
            List.exists_cons_of_ne_nil (l := ls ++ l :: more) (by simp)
          rw [List.cons_append, hsplit] at hlaid
          obtain ⟨mid, hmark, hmid, hread⟩ := hs.read_mark hc.mayJoin (by omega) hlaid
          rw [← hsplit] at hmid
          obtain ⟨after, named', hafter, hlast, hread'⟩ :=
            ih (s := { s.push c with angles := angleDepth s.angles c }) hls hopen hmark hmid
          rw [spell_angles] at hafter hread'
          have hblank : c ≠ ' ' := by rintro rfl; exact absurd hc.mem (by decide)
          have hspell : s.spell (spelled named (.mark c :: ls)) =
              (s.push c).spell (spelled false ls) := by
            rw [spelled, spell, if_neg hblank]
          rw [hspell]
          exact ⟨after, named', ⟨hafter.opened, hafter.plainly, hafter.unmodified, hafter.apart,
            hafter.tight⟩, hlast, hread.trans hread'⟩

/-- Type arguments are read up to the bracket that closes them. -/
theorem read_enclosed {first : Lexeme} {others : List Lexeme} (hangles : s.angles = 0)
    (hs : Between true s text) (hbetween : betweenAngles 0 false (first :: others) = true)
    (hlaid : Laid (enclosed (first :: others) ++ l :: more) text rest) :
    ∃ (u : OpenStatement) (mid : List Char) (named : Bool), Between named u mid ∧
      { u.push '>' with angles := 0 } = s.spell (spelled true (enclosed (first :: others))) ∧
        u.angles = 1 ∧ Laid (.mark '>' :: l :: more) mid rest ∧ s.read text = u.read mid := by
  have hsplit : enclosed (first :: others) ++ l :: more =
      .mark '<' :: first :: (others ++ .mark '>' :: l :: more) := by
    simp [enclosed]
  rw [hsplit] at hlaid
  have hcount : angleDepth s.angles '<' = 1 := by simp [angleDepth, hangles]
  obtain ⟨inner, hopen, hinner, hread⟩ := hs.read_mark (by decide) (by omega) hlaid
  rw [← List.cons_append] at hinner
  rw [hcount] at hopen hread
  obtain ⟨mid, named, hmid, hclosing, hread'⟩ :=
    read_betweenAngles (s := { s.push '<' with angles := 1 }) hbetween rfl hopen hinner
  rw [spell_angles] at hmid hread'
  refine ⟨_, mid, named, hmid, ?_, rfl, hclosing, hread.trans hread'⟩
  have htext : spelled true (enclosed (first :: others)) =
      '<' :: (spelled false (first :: others) ++ ['>']) := by
    rw [enclosed, spelled, spelled_append_mark]
    rfl
  have hzero : ((s.push '<').spell (spelled false (first :: others))).angles = 0 := by
    rw [angles_spell]
    exact hangles
  rw [htext, spell, if_neg (by decide), spell_append]
  generalize (s.push '<').spell (spelled false (first :: others)) = v at hzero
  rw [spell, if_neg (by decide), spell, ← hzero]
  rfl

theorem spell_arrayBrackets (s : OpenStatement) (named : Bool) (n : Nat) :
    s.spell (spelled named (arrayBrackets n)) = s.extend (written (arrayBrackets n)) := by
  have hblank : ' ' ∉ (written (arrayBrackets n)).toList := by
    induction n with
    | zero => simp [arrayBrackets]
    | succ n ih => simpa [arrayBrackets, Lexeme.chars] using ih
  rw [spelled_arrayBrackets, spell_of_not_mem s hblank, String.ofList_toList]

theorem spelled_enclosed_append (first : Lexeme) (others ys : List Lexeme) :
    spelled true (enclosed (first :: others) ++ ys) =
      spelled true (enclosed (first :: others)) ++ spelled false ys := by
  have hsplit : enclosed (first :: others) ++ ys =
      (.mark '<' :: first :: others) ++ .mark '>' :: ys := by simp [enclosed]
  have hclosed : enclosed (first :: others) = (.mark '<' :: first :: others) ++ [.mark '>'] := by
    simp [enclosed]
  rw [hsplit, hclosed, spelled_append_mark, spelled_append_mark]
  simp [spelled]

/-- The bracket that closes type arguments goes on with their token. -/
theorem Between.push_closing {named : Bool} (hs : Between named s text) (hone : s.angles = 1) :
    (s.countAngle '>').push '>' = { s.push '>' with angles := 0 } ∧
      (s.push '>').current ≠ "" ∧ atAnnotation (s.push '>') = false := by
  have hpush : (s.countAngle '>').push '>' = { s.push '>' with angles := 0 } := by
    rw [countAngle_eq, hone]
    rfl
  rw [push_eq_extend s]
  exact ⟨push_eq_extend s '>' ▸ hpush, extend_ne_empty hs.opened _,
    (atAnnotation_extend hs.opened _).trans hs.plainly⟩

/-- A type without arguments is read to its end. -/
theorem Between.read_brackets (hs : Between true s text) (hangles : s.angles = 0) (n : Nat)
    (hfollows : l.Follows) (hlaid : Laid (arrayBrackets n ++ l :: more) text rest) :
    ∃ (t : OpenStatement) (after : List Char),
      Stands t (s.extend (written (arrayBrackets n))).endToken after ∧
        Laid (l :: more) after rest ∧ s.read text = t.read after := by
  cases n with
  | zero =>
      refine ⟨s, text, ?_, hlaid, rfl⟩
      simpa [arrayBrackets, extend] using Stands.of_apart hs.plainly (hs.apart rfl)
  | succ n =>
      obtain ⟨after, hafter, hread⟩ :=
        read_arrayBrackets n hangles hs.opened hfollows.head?_ne.1 hlaid
      exact ⟨_, after, .of_current_eq_empty (current_endToken _) after, hafter, hread⟩

/-- From the bracket that closes its arguments on a type is read to its end. -/
theorem Between.read_closing {named : Bool} (hs : Between named s text) (hone : s.angles = 1)
    (n : Nat) (hfollows : l.Follows)
    (hlaid : Laid (.mark '>' :: (arrayBrackets n ++ l :: more)) text rest) :
    ∃ after, Laid (l :: more) after rest ∧ s.read text = (({ s.push '>' with angles := 0 } :
      OpenStatement).extend (written (arrayBrackets n))).endToken.read after := by
  obtain ⟨hpush, hopened, -⟩ := hs.push_closing hone
  cases n with
  | zero =>
      have hjoins : (s.countAngle '>').joins '>' l.chars.head? = false := by
        simp [joins, closesToken, countAngle, hone, hfollows.head?_ne]
      obtain ⟨after, hafter, hclose⟩ :=
        read_joined_closing hs.opened (by decide) (by decide) hjoins hlaid
      rw [hpush] at hclose
      have hnone : ∀ e : OpenStatement, e.extend (written (arrayBrackets 0)) = e := fun e => by
        simp [arrayBrackets, extend]
      exact ⟨after, hafter, by rw [hnone, hclose]⟩
  | succ n =>
      obtain ⟨mid, hmid, _, hclose⟩ :=
        read_joined hs.opened (by decide) (by simp) (by simp [joins, Lexeme.chars]) hlaid
      rw [hpush] at hclose
      obtain ⟨after, hafter, hread⟩ := read_arrayBrackets n
        (s := { s.push '>' with angles := 0 }) rfl hopened hfollows.head?_ne.1 hmid
      exact ⟨after, hafter, hclose.trans hread⟩

/-- After its name a type is read to its end. -/
theorem Between.read_typeTail {inner : List Lexeme} (hs : Between true s text)
    (hangles : s.angles = 0) (hbetween : betweenAngles 0 false inner = true) (n : Nat)
    (hfollows : l.Follows)
    (hlaid : Laid (enclosed inner ++ (arrayBrackets n ++ l :: more)) text rest) :
    ∃ (e t : OpenStatement) (after : List Char),
      e = s.spell (spelled true (enclosed inner ++ arrayBrackets n)) ∧ e.current ≠ "" ∧
        e.atAnnotation = false ∧ Stands t e.endToken after ∧ Laid (l :: more) after rest ∧
          s.read text = t.read after := by
  cases inner with
  | nil =>
      rw [enclosed, List.nil_append] at hlaid ⊢
      have hat := (atAnnotation_extend hs.opened (written (arrayBrackets n))).trans hs.plainly
      obtain ⟨t, after, hstands, hafter, hread⟩ := hs.read_brackets hangles n hfollows hlaid
      exact ⟨_, t, after, (spell_arrayBrackets s true n).symm, extend_ne_empty hs.opened _, hat,
        hstands, hafter, hread⟩
  | cons first others =>
      obtain ⟨x, xs, hx⟩ :=
        List.exists_cons_of_ne_nil (l := arrayBrackets n ++ l :: more) (by simp)
      rw [hx] at hlaid
      obtain ⟨u, mid, named, hu, hclosed, hone, hmid, hread⟩ :=
        read_enclosed hangles hs hbetween hlaid
      rw [← hx] at hmid
      obtain ⟨after, hafter, hclose⟩ := hu.read_closing hone n hfollows hmid
      obtain ⟨-, hopened, hplainly⟩ := hu.push_closing hone
      have hat := (atAnnotation_extend (s := { u.push '>' with angles := 0 }) hopened
        (written (arrayBrackets n))).trans hplainly
      rw [spelled_enclosed_append, spell_append, spell_arrayBrackets, ← hclosed]
      exact ⟨_, _, after, rfl, extend_ne_empty hopened _, hat,
        .of_current_eq_empty (current_endToken _) after, hafter, hread.trans hclose⟩

end OpenStatement

/-- A name with what can stand between angle brackets after it, and with array
brackets, is as many tokens as there are pieces between its blanks. -/
theorem takes_spelled (q : QualifiedName) {inner : List Lexeme}
    (hinner : betweenAngles 0 false inner = true) (n : Nat) {k : OpenStatement}
    (hangles : k.angles = 0) :
    Takes Lexeme.Follows k (q.lexemes ++ (enclosed inner ++ arrayBrackets n))
      (k.takeAll ((pieces ' ' (spelled false (q.lexemes ++
        (enclosed inner ++ arrayBrackets n)))).map String.ofList)) := by
  intro s l more text rest hs hfollows hlaid
  have hk := hs.current_eq
  have hsplit : (q.lexemes ++ (enclosed inner ++ arrayBrackets n)) ++ l :: more =
      .word q.first.toWord :: (dotted q.more ++ (enclosed inner ++
        (arrayBrackets n ++ l :: more))) := by
    simp [QualifiedName.lexemes]
  rw [hsplit] at hlaid
  obtain ⟨start, hapart, hstart, hword⟩ := hs.read_word hlaid
  have hopened : (k.extend q.first.text).current ≠ "" := by
    simp [extend, hk, q.first.ne_empty]
  obtain ⟨x, xs, hx⟩ := List.exists_cons_of_ne_nil
    (l := enclosed inner ++ (arrayBrackets n ++ l :: more)) (by simp)
  rw [hx] at hstart
  obtain ⟨mid, hapart', hmid, hname⟩ := read_dotted q.more hopened hapart hstart
  rw [← hx] at hmid
  have hbetween : Between true ((k.extend q.first.text).extend (written (dotted q.more))) mid := by
    refine ⟨extend_ne_empty hopened _, ?_, ?_, fun _ => hapart', by simp⟩
    · rw [atAnnotation_extend hopened, q.first.notAt_extend hk]
    · simpa [extend, hk] using mayPrecedeTypeParameters_name q.first q.more
  obtain ⟨e, u, after, he, hnot, hat, hu, hafter, hread⟩ :=
    hbetween.read_typeTail hangles hinner n hfollows hmid
  refine ⟨u, after, ?_, hafter, hword.trans (hname.trans hread)⟩
  have hspelled : spelled false (q.lexemes ++ (enclosed inner ++ arrayBrackets n)) =
      q.first.text.toList ++ ((written (dotted q.more)).toList ++
        spelled true (enclosed inner ++ arrayBrackets n)) := by
    simp [QualifiedName.lexemes, spelled, spelled_dotted]
  rw [hspelled]
  have hspell : e = k.spell (q.first.text.toList ++ ((written (dotted q.more)).toList ++
      spelled true (enclosed inner ++ arrayBrackets n))) := by
    rw [he, spell_append, spell_append, spell_word,
      spell_of_not_mem _ (blank_not_mem_dotted q.more), String.ofList_toList]
  generalize q.first.text.toList ++ ((written (dotted q.more)).toList ++
    spelled true (enclosed inner ++ arrayBrackets n)) = chars at hspell ⊢
  have htokens := tokens_spell k chars
  rw [← hspell] at htokens
  have htake : e.endToken = k.takeAll ((pieces ' ' chars).map String.ofList) := by
    obtain ⟨piece, others, hpieces⟩ := List.exists_cons_of_ne_nil (pieces_ne_nil ' ' chars)
    have hangles' : e.angles = k.angles := by rw [hspell, angles_spell]
    have hparentheses : e.parentheses = k.parentheses := by rw [hspell, parentheses_spell]
    rw [endToken_of_current_ne_empty hnot hat, htokens]
    simp [takeAll, hpieces, hk, hangles', hparentheses]
  rwa [htake] at hu

/-! ## What can stand between angle brackets -/

/-- Lexemes that can stand before any others between angle brackets. -/
def Inner (xs : List Lexeme) : Prop :=
  ∀ (depth : Nat) (ls : List Lexeme), (∀ named, betweenAngles depth named ls = true) →
    ∀ named, betweenAngles depth named (xs ++ ls) = true

namespace Inner

variable {xs ys : List Lexeme}

theorem nil : Inner [] := fun _ _ hls => hls

theorem append (hxs : Inner xs) (hys : Inner ys) : Inner (xs ++ ys) := by
  intro depth ls hls named
  rw [List.append_assoc]
  exact hxs depth (ys ++ ls) (hys depth ls hls) named

theorem mark {c : Char} (hc : c ∈ ['.', ',', '?', '[', ']']) : Inner [.mark c] := by
  intro depth ls hls named
  have hkinds : ∀ d ∈ ['.', ',', '?', '[', ']'], d ≠ '<' ∧ d ≠ '>' := by decide
  rw [List.singleton_append, betweenAngles, if_neg (hkinds c hc).1, if_neg (hkinds c hc).2,
    List.contains_iff_mem.2 hc, hls false]
  rfl

/-- After a mark any word can stand. -/
theorem mark_word {c : Char} (hc : c ∈ ['.', ',', '?', '[', ']']) (w : Word) :
    Inner [.mark c, .word w] := by
  intro depth ls hls named
  have hword : betweenAngles depth false (.word w :: ls) = true := by simp [betweenAngles, hls]
  have hkinds : ∀ d ∈ ['.', ',', '?', '[', ']'], d ≠ '<' ∧ d ≠ '>' := by decide
  rw [List.cons_append, List.singleton_append, betweenAngles, if_neg (hkinds c hc).1,
    if_neg (hkinds c hc).2, List.contains_iff_mem.2 hc, hword]
  rfl

theorem dotted (ws : List Word) : Inner (dotted ws) := by
  induction ws with
  | nil => exact nil
  | cons w ws ih => exact (mark_word (by decide) w).append ih

/-- A name can also stand after the keyword of a bound. -/
theorem name (q : QualifiedName) : Inner q.lexemes := by
  have hfirst := mayPrecedeTypeParameters_name q.first []
  simp only [JavaOutline.dotted, written_nil, String.append_empty] at hfirst
  intro depth ls hls named
  simp [QualifiedName.lexemes, betweenAngles, hfirst, dotted q.more depth ls hls]

theorem arrayBrackets (n : Nat) : Inner (arrayBrackets n) := by
  induction n with
  | zero => exact nil
  | succ n ih => exact (mark (by decide)).append ((mark (by decide)).append ih)

theorem enclosed (hxs : Inner xs) : Inner (enclosed xs) := by
  intro depth ls hls named
  cases xs with
  | nil => exact hls named
  | cons x xs =>
      have hclosed : ∀ named, betweenAngles (depth + 1) named (.mark '>' :: ls) = true := by
        intro named
        simp [betweenAngles, hls]
      simpa [JavaOutline.enclosed, betweenAngles] using
        hxs (depth + 1) (.mark '>' :: ls) hclosed false

end Inner

/-! ## Words side by side -/

/-- Whether a word comes after a word; `named` says that one comes before
the lexemes. -/
def wordsMeet : Bool → List Lexeme → Bool
  | _, [] => false
  | named, .word _ :: ls => named || wordsMeet true ls
  | _, .literal _ :: ls => wordsMeet false ls
  | _, .mark _ :: ls => wordsMeet false ls

/-- The first blank comes before the first word after a word. -/
theorem spelled_of_betweenAngles {depth : Nat} {named : Bool} {ls : List Lexeme}
    (h : betweenAngles depth named ls = true) :
    if wordsMeet named ls then
      ∃ before c after, spelled named ls = before ++ ' ' :: c :: after ∧ ' ' ∉ before ∧
        isPlain c = true
    else ' ' ∉ spelled named ls := by
  -- A part without blanks in front changes nothing.
  have hcons : ∀ {part text : List Char} {meet : Bool}, ' ' ∉ part →
      (if meet then ∃ before c after, text = before ++ ' ' :: c :: after ∧ ' ' ∉ before ∧
        isPlain c = true else ' ' ∉ text) →
      if meet then ∃ before c after, part ++ text = before ++ ' ' :: c :: after ∧ ' ' ∉ before ∧
        isPlain c = true else ' ' ∉ part ++ text := by
    intro part text meet hpart htext
    cases meet with
    | false => simpa [hpart] using htext
    | true =>
        obtain ⟨before, c, after, rfl, hbefore, hc⟩ := htext
        exact ⟨part ++ before, c, after, by simp, by simp [hpart, hbefore], hc⟩
  induction ls generalizing depth named with
  | nil => simp [spelled, wordsMeet]
  | cons x ls ih =>
      cases x with
      | literal q => simp [betweenAngles] at h
      | word w =>
          simp only [betweenAngles, Bool.and_eq_true] at h
          cases named with
          | false =>
              have hword : spelled false (.word w :: ls) = w.text.toList ++ spelled true ls := by
                simp [spelled]
              rw [hword, wordsMeet, Bool.false_or]
              exact hcons (w.not_mem (by decide)) (ih h.2)
          | true =>
              obtain ⟨c, cs, hw, hplain, _⟩ := w.exists_cons
              exact ⟨[], c, cs ++ spelled true ls, by simp [spelled, hw], by simp, hplain⟩
      | mark c =>
          obtain ⟨d, hc, hls⟩ := betweenAngles_mark h
          have hmark : ' ' ∉ [c] := by
            rw [List.mem_singleton]
            rintro rfl
            exact absurd hc.mem (by decide)
          exact hcons hmark (ih hls)

/-- Whether lexemes bring words together, before others that do not begin
with a word. -/
def Meets (named : Bool) (xs : List Lexeme) (meet : Bool) : Prop :=
  ∀ ls, (∀ named', wordsMeet named' ls = wordsMeet false ls) →
    wordsMeet named (xs ++ ls) = (meet || wordsMeet false ls)

namespace Meets

variable {named a b : Bool} {xs ys : List Lexeme}

theorem nil : Meets named [] false := by
  intro ls hls
  simpa using hls named

theorem append (hxs : Meets named xs a) (hys : ∀ named', Meets named' ys b) :
    Meets named (xs ++ ys) (a || b) := by
  intro ls hls
  have hbegins : ∀ named', wordsMeet named' (ys ++ ls) = wordsMeet false (ys ++ ls) := by
    intro named'
    rw [hys named' ls hls, hys false ls hls]
  rw [List.append_assoc, hxs (ys ++ ls) hbegins, hys false ls hls, Bool.or_assoc]

theorem cons_mark (c : Char) (hxs : Meets false xs a) : Meets named (.mark c :: xs) a := by
  intro ls hls
  rw [List.cons_append, wordsMeet, hxs ls hls]

theorem dotted (ws : List Word) : Meets named (dotted ws) false := by
  induction ws generalizing named with
  | nil => exact nil
  | cons w ws ih =>
      intro ls hls
      have hdotted : Meets true (JavaOutline.dotted ws) false := ih
      have hrest := hdotted ls hls
      simpa [JavaOutline.dotted, wordsMeet] using hrest

theorem name (q : QualifiedName) : Meets named q.lexemes named := by
  intro ls hls
  have hdotted : Meets true (JavaOutline.dotted q.more) false := dotted q.more
  have hrest := hdotted ls hls
  rw [Bool.false_or] at hrest
  rw [QualifiedName.lexemes, List.cons_append, wordsMeet, hrest]

theorem arrayBrackets (n : Nat) : Meets named (arrayBrackets n) false := by
  induction n generalizing named with
  | zero => exact nil
  | succ n ih => exact cons_mark '[' (cons_mark ']' ih)

theorem enclosed (hxs : Meets false xs a) : Meets named (enclosed xs) a := by
  intro ls hls
  cases xs with
  | nil =>
      have hnone := hxs [] (fun _ => rfl)
      simp only [List.append_nil, wordsMeet, Bool.or_false] at hnone
      rw [← hnone, Bool.false_or]
      exact hls named
  | cons x xs =>
      have hclosed := hxs (.mark '>' :: ls) fun _ => rfl
      simpa [JavaOutline.enclosed, wordsMeet] using hclosed

end Meets

end JavaOutline
