import JavaOutline.Declaration.TypeHeader
import JavaOutline.Proofs.Layout.Tokens

/-!
# JavaOutline.Proofs.Grammar.Types

Names and types as they are written, and how they are read: a type is one
token, whatever blanks it is laid out with (`takes_type`).

1. a *name* is a word that the readers do not act on;
2. a *type* is a dotted name with type arguments and array brackets;
3. *type arguments* are whatever may stand between angle brackets: words,
   no two of them side by side, and the marks `.`, `,`, `?`, `<`, `>`, `[`
   and `]`.  What a mark does to the number of open brackets is `AngleMark`,
   whichever reader counts them.
-/

namespace JavaOutline

open Text

/-! ## Names -/

/-- The words that the readers act on.  All of them are keywords. -/
def reservedWords : List String :=
  ["public", "private", "protected", "static", "final", "package", "import", "class",
    "interface", "enum"] ++ inertWords

/-- A word that the readers do not act on. -/
structure Name extends Word where
  free : reservedWords.contains text = false

/-- Whether a variable of the name is declared. -/
def Name.isDeclared (n : Name) : Bool := isIdentifier n.text.toList

/-- Every name. -/
def everyName (_ : Name) : Bool := true

/-- The lexemes of words with a dot before each. -/
def dotted : List Word → List Lexeme
  | [] => []
  | w :: ws => .mark '.' :: .word w :: dotted ws

/-- A dotted name. -/
structure QualifiedName where
  first : Name
  more : List Word

/-- The lexemes of a dotted name. -/
def QualifiedName.lexemes (q : QualifiedName) : List Lexeme :=
  .word q.first.toWord :: dotted q.more

/-! ## Types -/

/-- Whether lexemes can stand between angle brackets, inside `depth`
brackets of their own; `named` says that a word comes before them. -/
def insideAngles : Nat → Bool → List Lexeme → Bool
  | depth, _, [] => depth == 0
  | depth, named, .word _ :: ls => !named && insideAngles depth true ls
  | _, _, .literal _ :: _ => false
  | depth, _, .mark c :: ls =>
    if c = '<' then insideAngles (depth + 1) false ls
    else if c = '>' then depth != 0 && insideAngles (depth - 1) false ls
    else ['.', ',', '?', '[', ']'].contains c && insideAngles depth false ls

/-- Whether a lexeme is a dot. -/
def Lexeme.isDot : Lexeme → Bool
  | .mark c => c == '.'
  | _ => false

/-- Whether no two dots are side by side. -/
def dotsApart : List Lexeme → Bool
  | [] => true
  | l :: ls => !(l.isDot && ls.head?.any Lexeme.isDot) && dotsApart ls

/-- What stands between the outer angle brackets of a type. -/
structure TypeArguments where
  lexemes : List Lexeme
  inside : insideAngles 0 false lexemes = true
  apart : dotsApart lexemes = true

/-- The type of a class: a name with type arguments. -/
structure ClassType where
  name : QualifiedName
  arguments : Option TypeArguments

/-- A class type or an array of one. -/
structure WrittenType extends ClassType where
  /-- The number of pairs of array brackets. -/
  dimensions : Nat

/-- The lexemes of type arguments with their brackets. -/
def argumentLexemes : Option TypeArguments → List Lexeme
  | none => []
  | some arguments => .mark '<' :: (arguments.lexemes ++ [.mark '>'])

/-- Pairs of array brackets. -/
def arrayBrackets : Nat → List Lexeme
  | 0 => []
  | n + 1 => .mark '[' :: .mark ']' :: arrayBrackets n

/-- What comes after the first word of a class type. -/
def ClassType.tail (t : ClassType) : List Lexeme :=
  dotted t.name.more ++ argumentLexemes t.arguments

/-- The lexemes of a class type. -/
def ClassType.lexemes (t : ClassType) : List Lexeme := .word t.name.first.toWord :: t.tail

/-- The lexemes of a type. -/
def WrittenType.lexemes (t : WrittenType) : List Lexeme :=
  t.toClassType.lexemes ++ arrayBrackets t.dimensions

/-- Whether a type ends in a bracket. -/
def WrittenType.isClosed (t : WrittenType) : Bool := t.arguments.isSome || t.dimensions != 0

/-- Lexemes written without blanks. -/
def written (ls : List Lexeme) : String := String.ofList (ls.flatMap Lexeme.chars)

/-- A dotted name without blanks. -/
def QualifiedName.text (q : QualifiedName) : String := written q.lexemes

/-- A class type without blanks. -/
def ClassType.text (t : ClassType) : String := written t.lexemes

/-- A type without blanks. -/
def WrittenType.text (t : WrittenType) : String := written t.lexemes

@[simp] theorem written_nil : written [] = "" := rfl

@[simp] theorem toList_written (ls : List Lexeme) :
    (written ls).toList = ls.flatMap Lexeme.chars := String.toList_ofList

theorem written_append (xs ys : List Lexeme) : written (xs ++ ys) = written xs ++ written ys := by
  apply String.toList_inj.1
  simp

theorem written_cons (l : Lexeme) (ls : List Lexeme) :
    written (l :: ls) = String.ofList l.chars ++ written ls := by
  apply String.toList_inj.1
  simp

theorem written_word (w : Word) (ls : List Lexeme) :
    written (.word w :: ls) = w.text ++ written ls := by
  rw [written_cons, Lexeme.chars, String.ofList_toList]

/-! ## Marks between angle brackets -/

/-- A mark between angle brackets takes the number of them that are open
inside the outer ones from `depth` to another. -/
inductive AngleMark : Char → Nat → Nat → Prop
  | opening (depth : Nat) : AngleMark '<' depth (depth + 1)
  | closing (depth : Nat) : AngleMark '>' (depth + 1) depth
  | passing {c : Char} (depth : Nat) (h : c ∈ ['.', ',', '?', '[', ']']) : AngleMark c depth depth

namespace AngleMark

variable {c : Char} {depth d : Nat}

/-- What accepts a mark between angle brackets, and then the rest of the
text, goes by `AngleMark`. -/
theorem of_accepts {rest : Nat → Bool}
    (h : (if c = '<' then rest (depth + 1)
      else if c = '>' then depth != 0 && rest (depth - 1)
      else ['.', ',', '?', '[', ']'].contains c && rest depth) = true) :
    ∃ d, AngleMark c depth d ∧ rest d = true := by
  by_cases hopen : c = '<'
  · rw [if_pos hopen] at h
    exact ⟨depth + 1, hopen ▸ .opening depth, h⟩
  rw [if_neg hopen] at h
  by_cases hclose : c = '>'
  · rw [if_pos hclose, Bool.and_eq_true, bne_iff_ne] at h
    obtain ⟨hdepth, hrest⟩ := h
    obtain ⟨d, rfl⟩ := Nat.exists_eq_succ_of_ne_zero hdepth
    exact ⟨d, hclose ▸ .closing d, hrest⟩
  · rw [if_neg hclose, Bool.and_eq_true, List.contains_iff_mem] at h
    exact ⟨depth, .passing depth h.1, h.2⟩

/-- Which marks stand between angle brackets. -/
theorem mem (h : AngleMark c depth d) : c ∈ ['<', '>', '.', ',', '?', '[', ']'] := by
  cases h with
  | opening => decide
  | closing => decide
  | passing _ hc => exact List.mem_cons_of_mem _ (List.mem_cons_of_mem _ hc)

theorem mayJoin (h : AngleMark c depth d) : OpenStatement.mayJoin c = true := by
  have hjoin : ∀ e ∈ ['<', '>', '.', ',', '?', '[', ']'], OpenStatement.mayJoin e = true := by decide
  exact hjoin c h.mem

/-- The outer bracket stays open. -/
theorem angleDepth_eq (h : AngleMark c depth d) : angleDepth (depth + 1) c = d + 1 := by
  cases h with
  | opening => simp [angleDepth]
  | closing => simp [angleDepth]
  | passing _ hc =>
      have hkinds : ∀ e ∈ ['.', ',', '?', '[', ']'], e ≠ '<' ∧ e ≠ '>' := by decide
      obtain ⟨hleft, hright⟩ := hkinds c hc
      rw [angleDepth, if_neg hleft, if_neg hright]

end AngleMark

theorem insideAngles_mark {depth : Nat} {named : Bool} {c : Char} {ls : List Lexeme}
    (h : insideAngles depth named (.mark c :: ls) = true) :
    ∃ d, AngleMark c depth d ∧ insideAngles d false ls = true := by
  rw [insideAngles] at h
  exact AngleMark.of_accepts h

/-! ## Characters that join a token -/

namespace OpenStatement

variable {s : OpenStatement} {c : Char} {l : Lexeme} {ls more : List Lexeme}
  {text rest : List Char}

theorem countAngle_eq (s : OpenStatement) (c : Char) :
    s.countAngle c = { s with angles := angleDepth s.angles c } := by
  rw [countAngle, angleDepth]
  split
  · rfl
  · split <;> rfl

/-- A joining character meets a boundary wherever it comes after a token. -/
theorem read_joint (hcurrent : s.current ≠ "") (hjoin : mayJoin c = true)
    (hlaid : Laid (.mark c :: ls) text rest) : ∃ after, Laid ls after rest ∧
      s.read text = (s.joint c after).1.read (s.joint c after).2 := by
  obtain ⟨run, after, hrun, rfl, hfits, hls⟩ := hlaid
  refine ⟨after, hls, ?_⟩
  have hkinds : ∀ d ∈ ['.', ',', '<', '>', '[', ']', '?'], interruptsName d = true ∧
      isBlank d = false ∧ d ≠ '/' := by decide
  have hmem : c ∈ ['.', ',', '<', '>', '[', ']', '?'] := by
    simpa [mayJoin, List.contains_iff_mem] using hjoin
  obtain ⟨hinterrupts, hblank, hslash⟩ := hkinds c hmem
  have hboundary : s.boundary c after = s.joint c after := by rw [boundary, if_pos hjoin]
  rw [Lexeme.chars, List.singleton_append]
  by_cases hrunEmpty : run = []
  · subst hrunEmpty
    rw [List.nil_append, read_interrupting hcurrent hinterrupts, hboundary]
  · rw [read_blanks_append s hrun hrunEmpty hblank hslash, hboundary]

/-- Where the token goes on, so does the text after the blanks. -/
theorem read_joined (hcurrent : s.current ≠ "") (hjoin : mayJoin c = true)
    (hbegins : ¬ (c = '<' ∧ mayPrecedeTypeParameters s.current = true))
    (hjoins : (s.countAngle c).joins c l.chars.head? = true)
    (hlaid : Laid (.mark c :: l :: ls) text rest) : ∃ after, Laid (l :: ls) after rest ∧
      skipBlanks after = after ∧ s.read text = ((s.countAngle c).push c).read after := by
  obtain ⟨after, hls, hread⟩ := read_joint hcurrent hjoin hlaid
  refine ⟨skipBlanks after, hls.of_skipBlanks, hls.skipBlanks_skipBlanks, ?_⟩
  have hjoint : s.joint c after = ((s.countAngle c).push c, skipBlanks after) := by
    rw [joint]
    dsimp only
    rw [if_neg hbegins, if_pos (by rw [hls.head?_skipBlanks]; exact hjoins)]
  rw [hread, hjoint]

/-- A mark after which an angle bracket is open goes on with the token. -/
theorem read_joined_open (hcurrent : s.current ≠ "")
    (hunmodified : mayPrecedeTypeParameters s.current = false) (hjoin : mayJoin c = true)
    (hopen : 0 < angleDepth s.angles c) (hlaid : Laid (.mark c :: l :: ls) text rest) :
    ∃ after, Laid (l :: ls) after rest ∧ skipBlanks after = after ∧
      s.read text =
        ({ s.push c with angles := angleDepth s.angles c } : OpenStatement).read after := by
  have hjoins : (s.countAngle c).joins c l.chars.head? = true := by simp [joins, countAngle_eq, hopen]
  obtain ⟨after, hafter, htight, hread⟩ :=
    read_joined hcurrent hjoin (by simp [hunmodified]) hjoins hlaid
  rw [countAngle_eq] at hread
  exact ⟨after, hafter, htight, hread⟩

/-- A closing character that joins nothing more ends the token. -/
theorem read_joined_closing (hcurrent : s.current ≠ "") (hjoin : mayJoin c = true)
    (hcloses : closesToken c = true)
    (hjoins : (s.countAngle c).joins c l.chars.head? = false)
    (hlaid : Laid (.mark c :: l :: ls) text rest) : ∃ after, Laid (l :: ls) after rest ∧
      s.read text = ((s.countAngle c).push c).endToken.read after := by
  obtain ⟨after, hls, hread⟩ := read_joint hcurrent hjoin hlaid
  refine ⟨after, hls, ?_⟩
  have hbegins : ¬ (c = '<' ∧ mayPrecedeTypeParameters s.current = true) := by
    rintro ⟨rfl, _⟩
    exact absurd hcloses (by decide)
  have hnot : ¬ (s.countAngle c).joins c (skipBlanks after).head? = true := by
    rw [hls.head?_skipBlanks, hjoins]
    exact Bool.false_ne_true
  have hjoint : s.joint c after = (((s.countAngle c).push c).endToken, after) := by
    rw [joint]
    dsimp only
    rw [if_neg hbegins, if_neg hnot, if_pos hcloses]
  rw [hread, hjoint]

/-- A word right at the beginning of the text goes on with the token. -/
theorem read_joined_word {w : Word} (hlaid : Laid (.word w :: ls) text rest)
    (htight : skipBlanks text = text) : ∃ after, (Lexeme.word w).Fits after ∧ Laid ls after rest ∧
      s.read text = (s.extend w.text).read after := by
  obtain ⟨after, htext, hfits, hls⟩ := hlaid.skipBlanks
  refine ⟨after, hfits, hls, ?_⟩
  rw [← htight, htext, Lexeme.chars, read_word_append]

/-! ## Dotted names -/

/-- The words of a dotted name stay together. -/
theorem read_dotted (ws : List Word) (hcurrent : s.current ≠ "")
    (hapart : Apart text)
    (hlaid : Laid (dotted ws ++ l :: more) text rest) :
    ∃ after, Apart after ∧ Laid (l :: more) after rest ∧
      s.read text = (s.extend (written (dotted ws))).read after := by
  induction ws generalizing s text with
  | nil => exact ⟨text, hapart, hlaid, by simp [dotted, extend]⟩
  | cons w ws ih =>
      obtain ⟨mid, hmid, htight, hdot⟩ := read_joined hcurrent (by decide) (by simp)
        (by simp [joins, closesToken]) hlaid
      obtain ⟨mid', hfits, hmid', hword⟩ := read_joined_word hmid htight
      have hcount : s.countAngle '.' = s := rfl
      rw [hcount, push_eq_extend] at hdot
      have hnext := extend_ne_empty (extend_ne_empty hcurrent (String.singleton '.')) w.text
      obtain ⟨after, hafter, hlast, hread⟩ := ih hnext hfits hmid'
      refine ⟨after, hafter, hlast, ?_⟩
      have htext : written (dotted (w :: ws)) =
          String.singleton '.' ++ (w.text ++ written (dotted ws)) := by
        rw [dotted, written_cons, written_word]
        rfl
      rw [hdot, hword, hread, extend_extend, extend_extend, htext]

/-! ## Type arguments -/

/-- None of the words that may stand before type parameters holds a mark. -/
theorem not_mayPrecedeTypeParameters {word : String} {c : Char} (hc : c ∈ word.toList)
    (hmark : c ∈ ['<', '.', ',', '@']) : mayPrecedeTypeParameters word = false := by
  cases h : mayPrecedeTypeParameters word with
  | false => rfl
  | true =>
      have hwords : ∀ other ∈ ["public", "protected", "private", "static", "final", "default"] ++
          inertWords, ∀ d ∈ other.toList, d ∉ ['<', '.', ',', '@'] := by decide
      have hin : word ∈ ["public", "protected", "private", "static", "final", "default"] ++
          inertWords := by
        rw [mayPrecedeTypeParameters, isInert, Bool.or_eq_true, List.contains_iff_mem,
          List.contains_iff_mem] at h
        exact List.mem_append.2 h
      exact absurd hmark (hwords word hin c hc)

/-- Between angle brackets everything stays together. -/
theorem read_insideAngles {depth : Nat} {named : Bool} (hinside : insideAngles depth named ls = true)
    (hangles : s.angles = depth + 1) (hmark : '<' ∈ s.current.toList)
    (htext : named = false → skipBlanks text = text)
    (hlaid : Laid (ls ++ l :: more) text rest) : ∃ after, Laid (l :: more) after rest ∧
      s.read text = { s with current := s.current ++ written ls, angles := 1 }.read after := by
  induction ls generalizing s text depth named with
  | nil =>
      simp only [insideAngles, beq_iff_eq] at hinside
      subst hinside
      refine ⟨text, hlaid, ?_⟩
      obtain ⟨tokens, current, parentheses, angles⟩ := s
      simp only [Int.natCast_zero, Int.zero_add] at hangles
      simp [hangles]
  | cons x ls ih =>
      cases x with
      | literal q => simp [insideAngles] at hinside
      | word w =>
          simp only [insideAngles, Bool.and_eq_true, Bool.not_eq_true'] at hinside
          obtain ⟨mid, _, hmid, hword⟩ := read_joined_word hlaid (htext hinside.1)
          have hnext : '<' ∈ (s.extend w.text).current.toList := by simp [extend, hmark]
          have hopen : (s.extend w.text).angles = depth + 1 := hangles
          obtain ⟨after, hafter, hread⟩ := ih hinside.2 hopen hnext (by simp) hmid
          refine ⟨after, hafter, ?_⟩
          rw [hword, hread, written_word, ← String.append_assoc]
          rfl
      | mark c =>
          have hcurrent : s.current ≠ "" := by intro h; simp [h] at hmark
          obtain ⟨d, hc, hls⟩ := insideAngles_mark hinside
          have hopen : angleDepth s.angles c = d + 1 := hangles ▸ hc.angleDepth_eq
          obtain ⟨first, others, hsplit⟩ :=
            List.exists_cons_of_ne_nil (l := ls ++ l :: more) (by simp)
          rw [List.cons_append, hsplit] at hlaid
          obtain ⟨mid, hmid, htight, hmarkRead⟩ := read_joined_open hcurrent
            (not_mayPrecedeTypeParameters hmark (by decide)) hc.mayJoin (by omega) hlaid
          rw [← hsplit] at hmid
          obtain ⟨after, hafter, hread⟩ := ih (s := { s.push c with angles := angleDepth s.angles c })
            hls hopen (by simp [push, hmark]) (fun _ => htight) hmid
          refine ⟨after, hafter, ?_⟩
          have htext : s.current.push c ++ written ls = s.current ++ written (.mark c :: ls) := by
            apply String.toList_inj.1
            simp [Lexeme.chars]
          rw [hmarkRead, hread, ← htext]
          rfl

/-! ## Types -/

/-- A name that the readers do not act on does not precede type
parameters. -/
theorem mayPrecedeTypeParameters_name (n : Name) (ws : List Word) :
    mayPrecedeTypeParameters (n.text ++ written (dotted ws)) = false := by
  cases ws with
  | nil =>
      have hfree := n.free
      simp only [reservedWords, List.contains_eq_mem, decide_eq_false_iff_not, List.mem_append,
        not_or] at hfree
      obtain ⟨hkeyword, hinert⟩ := hfree
      have hdefault : n.text ≠ "default" := by
        intro h
        rw [h] at hinert
        exact hinert (by decide)
      simp only [List.mem_cons, List.not_mem_nil, or_false, not_or] at hkeyword
      simp [dotted, mayPrecedeTypeParameters, isInert, hinert, hkeyword, hdefault]
  | cons w ws =>
      have hdot : '.' ∈ (n.text ++ written (dotted (w :: ws))).toList := by
        simp [dotted, Lexeme.chars]
      exact not_mayPrecedeTypeParameters hdot (by decide)

/-- The statement inside the type arguments of a class type, before the
bracket that closes them. -/
def insideType (s : OpenStatement) (t : ClassType) (arguments : TypeArguments) : OpenStatement :=
  { s with
    current := s.current ++ (written (dotted t.name.more) ++ ("<" ++ written arguments.lexemes))
    angles := 1 }

/-- Type arguments are read up to the bracket that closes them. -/
theorem read_arguments {t : ClassType} {arguments : TypeArguments}
    (harguments : t.arguments = some arguments) (hangles : s.angles = 0)
    (hcurrent : s.current ≠ "")
    (hbegins : mayPrecedeTypeParameters (s.current ++ written (dotted t.name.more)) = false)
    (hapart : Apart text)
    (hlaid : Laid (t.tail ++ more) text rest) : ∃ mid, Laid (.mark '>' :: more) mid rest ∧
      s.read text = (s.insideType t arguments).read mid := by
  simp only [ClassType.tail, harguments, argumentLexemes, List.append_assoc, List.cons_append,
    List.nil_append] at hlaid
  obtain ⟨start, _, hstart, hname⟩ := read_dotted t.name.more hcurrent hapart hlaid
  obtain ⟨first, others, hsplit⟩ :=
    List.exists_cons_of_ne_nil (l := arguments.lexemes ++ .mark '>' :: more) (by simp)
  rw [hsplit] at hstart
  -- The bracket opens after the whole name.
  generalize hu : s.extend (written (dotted t.name.more)) = u at hname
  have hcurrentu : u.current ≠ "" := by rw [← hu]; exact extend_ne_empty hcurrent _
  have hbeginsu : mayPrecedeTypeParameters u.current = false := by rw [← hu]; exact hbegins
  have hdepth : angleDepth u.angles '<' = (0 : Nat) + 1 := by
    have hzero : u.angles = 0 := by rw [← hu]; exact hangles
    rw [hzero]
    rfl
  obtain ⟨inner, hinner, htight, hopen⟩ :=
    read_joined_open hcurrentu hbeginsu (by decide) (by omega) hstart
  rw [← hsplit] at hinner
  obtain ⟨mid, hmid, hread⟩ :=
    read_insideAngles (s := { u.push '<' with angles := angleDepth u.angles '<' })
      arguments.inside hdepth (by simp [push]) (fun _ => htight) hinner
  refine ⟨mid, hmid, ?_⟩
  rw [hname, hopen, hread, push_eq_extend, ← hu, insideType]
  simp only [extend, String.append_assoc]
  rfl

/-- The bracket that closes type arguments completes the class type. -/
theorem push_insideType {t : ClassType} {arguments : TypeArguments}
    (harguments : t.arguments = some arguments) (hangles : s.angles = 0) :
    ((s.insideType t arguments).countAngle '>').push '>' = s.extend (written t.tail) := by
  have htail : written t.tail =
      written (dotted t.name.more) ++ ("<" ++ written arguments.lexemes) ++ ">" := by
    rw [ClassType.tail, harguments, argumentLexemes, written_append, written_cons,
      written_append]
    simp [Lexeme.chars, written_cons, String.append_assoc]
  have hcount : (s.insideType t arguments).countAngle '>' =
      { s.insideType t arguments with angles := 0 } := by
    rw [countAngle, if_neg (by decide), if_pos rfl]
    rfl
  rw [hcount, htail, push_eq_extend, ← hangles]
  simp only [extend, insideType, String.append_assoc]
  rfl

/-- Whether a class type goes on before a lexeme: before array brackets,
and in a list of types. -/
def GoesOn (s : OpenStatement) (l : Lexeme) : Prop :=
  l = .mark '[' ∨ (l = .mark ',' ∧ s.parentheses = 0)

theorem read_classType_joined (t : ClassType) (hangles : s.angles = 0) (hcurrent : s.current ≠ "")
    (hbegins : mayPrecedeTypeParameters (s.current ++ written (dotted t.name.more)) = false)
    (hapart : Apart text) (hgoes : GoesOn s l)
    (hlaid : Laid (t.tail ++ l :: more) text rest) : ∃ after, Laid (l :: more) after rest ∧
      s.read text = (s.extend (written t.tail)).read after := by
  cases harguments : t.arguments with
  | none =>
      simp only [ClassType.tail, harguments, argumentLexemes, List.append_nil] at hlaid ⊢
      obtain ⟨after, _, hafter, hread⟩ := read_dotted t.name.more hcurrent hapart hlaid
      exact ⟨after, hafter, hread⟩
  | some arguments =>
      obtain ⟨mid, hmid, hinner⟩ := read_arguments harguments hangles hcurrent hbegins hapart hlaid
      have hinside : (s.insideType t arguments).current ≠ "" := by
        simp [insideType, hcurrent]
      have hjoins : ((s.insideType t arguments).countAngle '>').joins '>' l.chars.head? = true := by
        rcases hgoes with rfl | ⟨rfl, hzero⟩
        · simp [joins, Lexeme.chars]
        · simp [joins, countAngle, insideType, Lexeme.chars, hzero]
      obtain ⟨after, hafter, _, hclose⟩ := read_joined hinside (by decide) (by simp) hjoins hmid
      rw [push_insideType harguments hangles] at hclose
      exact ⟨after, hafter, hinner.trans hclose⟩

/-- Type arguments end the token, unless array brackets or a list of types
go on with it. -/
theorem read_classType_closed {t : ClassType} {arguments : TypeArguments}
    (harguments : t.arguments = some arguments) (hangles : s.angles = 0) (hcurrent : s.current ≠ "")
    (hbegins : mayPrecedeTypeParameters (s.current ++ written (dotted t.name.more)) = false)
    (hapart : Apart text) (hhead : l.chars.head? ≠ some '[' ∧ l.chars.head? ≠ some ',')
    (hlaid : Laid (t.tail ++ l :: more) text rest) : ∃ after, Laid (l :: more) after rest ∧
      s.read text = (s.extend (written t.tail)).endToken.read after := by
  obtain ⟨mid, hmid, hinner⟩ := read_arguments harguments hangles hcurrent hbegins hapart hlaid
  have hinside : (s.insideType t arguments).current ≠ "" := by
    simp [insideType, hcurrent]
  have hjoins : ((s.insideType t arguments).countAngle '>').joins '>' l.chars.head? = false := by
    simp [joins, closesToken, countAngle, insideType, hhead]
  obtain ⟨after, hafter, hclose⟩ :=
    read_joined_closing hinside (by decide) (by decide) hjoins hmid
  rw [push_insideType harguments hangles] at hclose
  exact ⟨after, hafter, hinner.trans hclose⟩

theorem read_classType_ended (t : ClassType) (hangles : s.angles = 0) (hcurrent : s.current ≠ "")
    (hat : s.atAnnotation = false)
    (hbegins : mayPrecedeTypeParameters (s.current ++ written (dotted t.name.more)) = false)
    (hapart : Apart text) (hfollows : l.Follows)
    (hlaid : Laid (t.tail ++ l :: more) text rest) : ∃ u after,
      Stands u (s.extend (written t.tail)).endToken after ∧ Laid (l :: more) after rest ∧
        s.read text = u.read after := by
  cases harguments : t.arguments with
  | none =>
      simp only [ClassType.tail, harguments, argumentLexemes, List.append_nil] at hlaid ⊢
      obtain ⟨after, hafter, hlast, hread⟩ := read_dotted t.name.more hcurrent hapart hlaid
      exact ⟨_, after, ⟨rfl, by rw [atAnnotation_extend hcurrent, hat], .inr hafter⟩, hlast, hread⟩
  | some arguments =>
      obtain ⟨after, hafter, hread⟩ := read_classType_closed harguments hangles hcurrent hbegins
        hapart hfollows.head?_ne hlaid
      exact ⟨_, after, .of_current_eq_empty (current_endToken _) after, hafter, hread⟩

/-- Array brackets go on with the token, and the last one ends it. -/
theorem read_arrayBrackets (n : Nat) (hangles : s.angles = 0) (hcurrent : s.current ≠ "")
    (hhead : l.chars.head? ≠ some '[')
    (hlaid : Laid (arrayBrackets (n + 1) ++ l :: more) text rest) :
    ∃ after, Laid (l :: more) after rest ∧
      s.read text = (s.extend (written (arrayBrackets (n + 1)))).endToken.read after := by
  induction n generalizing s text with
  | zero =>
      obtain ⟨mid, hmid, _, hopen⟩ := read_joined hcurrent (by decide) (by simp)
        (by simp [joins, closesToken]) hlaid
      have hcount : s.countAngle '[' = s := rfl
      rw [hcount, push_eq_extend] at hopen
      have hjoins : ((s.extend (String.singleton '[')).countAngle ']').joins ']' l.chars.head? =
          false := by
        simp [joins, closesToken, countAngle, extend, hangles, hhead]
      obtain ⟨after, hafter, hclose⟩ := read_joined_closing (extend_ne_empty hcurrent _) (by decide)
        (by decide) hjoins hmid
      refine ⟨after, hafter, ?_⟩
      have hcount' : (s.extend (String.singleton '[')).countAngle ']' =
          s.extend (String.singleton '[') := rfl
      rw [hopen, hclose, hcount', push_eq_extend, extend_extend]
      rfl
  | succ n ih =>
      obtain ⟨mid, hmid, _, hopen⟩ := read_joined hcurrent (by decide) (by simp)
        (by simp [joins, closesToken]) hlaid
      have hcount : s.countAngle '[' = s := rfl
      rw [hcount, push_eq_extend] at hopen
      obtain ⟨mid', hmid', _, hclose⟩ := read_joined (extend_ne_empty hcurrent _) (by decide)
        (by simp) (by simp [joins, Lexeme.chars]) hmid
      have hcount' : (s.extend (String.singleton '[')).countAngle ']' =
          s.extend (String.singleton '[') := rfl
      rw [hcount', push_eq_extend, extend_extend] at hclose
      obtain ⟨after, hafter, hread⟩ := ih (s := s.extend _) hangles (extend_ne_empty hcurrent _) hmid'
      refine ⟨after, hafter, ?_⟩
      have htext : written (arrayBrackets (n + 1 + 1)) =
          String.singleton '[' ++ String.singleton ']' ++ written (arrayBrackets (n + 1)) := by
        rw [arrayBrackets, written_cons, written_cons, String.append_assoc]
        rfl
      rw [hopen, hclose, hread, extend_extend, htext]

/-- After its first word a type is read to its end, where a bracket ends the
token. -/
theorem read_typeTail (t : WrittenType) (hangles : s.angles = 0) (hcurrent : s.current ≠ "")
    (hbegins : mayPrecedeTypeParameters (s.current ++ written (dotted t.name.more)) = false)
    (hapart : Apart text) (hhead : l.chars.head? ≠ some '[' ∧ l.chars.head? ≠ some ',')
    (hlaid : Laid (t.tail ++ (arrayBrackets t.dimensions ++ l :: more)) text rest) : ∃ after,
      Laid (l :: more) after rest ∧ (t.isClosed = false → Apart after) ∧ s.read text =
        (if t.isClosed then (s.extend (written (t.tail ++ arrayBrackets t.dimensions))).endToken
          else s.extend (written (t.tail ++ arrayBrackets t.dimensions))).read after := by
  cases hdimensions : t.dimensions with
  | zero =>
      rw [hdimensions, arrayBrackets, List.nil_append] at hlaid
      rw [arrayBrackets, List.append_nil]
      cases harguments : t.arguments with
      | none =>
          have hopen : t.isClosed = false := by
            simp [WrittenType.isClosed, harguments, hdimensions]
          simp only [ClassType.tail, harguments, argumentLexemes, List.append_nil] at hlaid ⊢
          obtain ⟨after, hafter, hlast, hread⟩ := read_dotted t.name.more hcurrent hapart hlaid
          exact ⟨after, hlast, fun _ => hafter, by rw [hopen]; exact hread⟩
      | some arguments =>
          have hclosed : t.isClosed = true := by simp [WrittenType.isClosed, harguments]
          obtain ⟨after, hafter, hread⟩ :=
            read_classType_closed harguments hangles hcurrent hbegins hapart hhead hlaid
          exact ⟨after, hafter, by simp [hclosed], by rw [hclosed]; exact hread⟩
  | succ n =>
      have hclosed : t.isClosed = true := by simp [WrittenType.isClosed, hdimensions]
      have hbrackets : arrayBrackets (n + 1) ++ l :: more =
          .mark '[' :: (.mark ']' :: arrayBrackets n ++ l :: more) := rfl
      rw [hdimensions, hbrackets] at hlaid
      obtain ⟨inner, hinner, htail⟩ :=
        read_classType_joined t.toClassType hangles hcurrent hbegins hapart (.inl rfl) hlaid
      rw [← hbrackets] at hinner
      obtain ⟨after, hafter, hread⟩ := read_arrayBrackets n (s := s.extend (written t.tail)) hangles
        (extend_ne_empty hcurrent _) hhead.1 hinner
      rw [extend_extend, ← written_append] at hread
      exact ⟨after, hafter, by simp [hclosed], by rw [hclosed]; exact htail.trans hread⟩

end OpenStatement

open OpenStatement

theorem WrittenType.text_eq (t : WrittenType) :
    t.text = t.name.first.text ++ written (t.tail ++ arrayBrackets t.dimensions) := by
  rw [WrittenType.text, WrittenType.lexemes, ClassType.lexemes, List.cons_append, written_word]

/-- **A type is one token**, whatever blanks it is laid out with. -/
theorem takes_type (t : WrittenType) {k : OpenStatement} (hangles : k.angles = 0) :
    Takes Lexeme.Follows k t.lexemes (k.take t.text) := by
  intro s l more text rest hs hfollows hlaid
  have hk := hs.current_eq
  rw [WrittenType.lexemes, ClassType.lexemes, List.append_assoc, List.cons_append] at hlaid
  obtain ⟨mid, hapart, hmid, hword⟩ := hs.read_word hlaid
  have hcurrent : (k.extend t.name.first.text).current ≠ "" := by
    simp [extend, hk, t.name.first.ne_empty]
  have hat := t.name.first.notAt_extend hk
  have hbegins : mayPrecedeTypeParameters
      ((k.extend t.name.first.text).current ++ written (dotted t.name.more)) = false := by
    rw [extend, hk, String.empty_append]
    exact mayPrecedeTypeParameters_name t.name.first t.name.more
  obtain ⟨after, hafter, hopen, hread⟩ := read_typeTail t (s := k.extend t.name.first.text) hangles
    hcurrent hbegins hapart hfollows.head?_ne hmid
  have htext := t.text_eq
  generalize written (t.tail ++ arrayBrackets t.dimensions) = tail at hread htext
  have hat' : atAnnotation ((k.extend t.name.first.text).extend tail) = false := by
    rw [atAnnotation_extend hcurrent, hat]
  have htake : ((k.extend t.name.first.text).extend tail).endToken = k.take t.text := by
    rw [endToken_of_current_ne_empty (extend_ne_empty hcurrent tail) hat']
    simp [extend, take, hk, htext]
  cases hclosed : t.isClosed with
  | false =>
      rw [hclosed] at hread
      refine ⟨_, after, ⟨htake, hat', .inr (hopen hclosed)⟩, hafter, hword.trans hread⟩
  | true =>
      rw [hclosed, if_pos rfl, htake] at hread
      have hempty : (k.take t.text).current = "" := hk
      exact ⟨_, after, .of_current_eq_empty hempty after, hafter, hword.trans hread⟩

/-! ## The text of a type -/

/-- No word that the readers act on holds a mark. -/
theorem not_reserved_of_mark {word : String} {c : Char} (hc : c ∈ word.toList)
    (hmark : c ∈ ['.', ',', '<', '[']) : reservedWords.contains word = false := by
  cases h : reservedWords.contains word with
  | false => rfl
  | true =>
      have hwords : ∀ other ∈ reservedWords, ∀ d ∈ other.toList, d ∉ ['.', ',', '<', '['] := by
        decide
      exact absurd hmark (hwords word (List.contains_iff_mem.1 h) c hc)

/-- The readers do not act on a type. -/
theorem WrittenType.free (t : WrittenType) : reservedWords.contains t.text = false := by
  have hmark : ∀ c ∈ ['.', ',', '<', '['], c ∈ t.text.toList →
      reservedWords.contains t.text = false := fun c hc hin => not_reserved_of_mark hin hc
  cases hmore : t.name.more with
  | cons w ws =>
      apply hmark '.' (by decide)
      rw [t.text_eq]
      simp [ClassType.tail, hmore, dotted, Lexeme.chars]
  | nil =>
      cases harguments : t.arguments with
      | some arguments =>
          apply hmark '<' (by decide)
          rw [t.text_eq]
          simp [ClassType.tail, hmore, harguments, dotted, argumentLexemes, Lexeme.chars]
      | none =>
          cases hdimensions : t.dimensions with
          | succ n =>
              apply hmark '[' (by decide)
              rw [t.text_eq]
              simp [ClassType.tail, hmore, harguments, dotted, argumentLexemes, hdimensions,
                arrayBrackets, Lexeme.chars]
          | zero =>
              have hfree := t.name.first.free
              rw [t.text_eq]
              simpa [hdimensions, ClassType.tail, hmore, harguments, dotted, argumentLexemes, arrayBrackets]
                using hfree

/-- A type begins with a plain character. -/
theorem WrittenType.exists_cons (t : WrittenType) :
    ∃ c cs, t.text.toList = c :: cs ∧ isPlain c = true := by
  obtain ⟨c, cs, hw, hplain, _⟩ := t.name.first.exists_cons
  rw [t.text_eq]
  exact ⟨c, _, by rw [String.toList_append, hw, List.cons_append], hplain⟩

theorem Name.not_head?_angle (n : Name) : n.text.toList.head? ≠ some '<' := by
  obtain ⟨c, cs, hw, hplain, _⟩ := n.exists_cons
  rw [hw, List.head?_cons]
  rintro h
  cases h
  exact absurd hplain (by decide)

theorem WrittenType.not_head?_angle (t : WrittenType) : t.text.toList.head? ≠ some '<' := by
  obtain ⟨c, cs, htext, hplain⟩ := t.exists_cons
  rw [htext, List.head?_cons]
  rintro h
  cases h
  exact absurd hplain (by decide)

end JavaOutline
