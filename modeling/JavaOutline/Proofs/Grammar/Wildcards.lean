import JavaOutline.Proofs.Grammar.Locals
import JavaOutline.Proofs.Grammar.Spelling

/-!
# JavaOutline.Proofs.Grammar.Wildcards

Type arguments that are wildcards.  Between angle brackets everything joins
the token except a word after a word, and only the bounds of wildcards
(`? extends T`) bring two words together.  So a type is one token if none
of its wildcards is bounded, and otherwise one token more for each bound
(`scan_field`), which declares something else (`TypeExpression.read_field`).
-/

namespace JavaOutline

open Text OpenStatement

/-! ## Types with wildcards -/

/-- What the bound of a wildcard is. -/
inductive Bound where
  /-- A super type, after `extends`. -/
  | upper
  /-- A subtype, after `super`. -/
  | lower

/-- The keyword before a bound. -/
def Bound.word : Bound → Word
  | .upper => ⟨"extends", .refl true⟩
  | .lower => ⟨"super", .refl true⟩

/-- Lists of type arguments. -/
inductive Arguments where
  | nil
  /-- `?`, and the arguments after it. -/
  | wildcard (next : Arguments)
  /-- A type, which may be the bound of a wildcard, and the arguments after
  it: a name with arguments of its own and pairs of array brackets. -/
  | type (bound : Option Bound) (name : QualifiedName) (own : Arguments) (dimensions : Nat)
    (next : Arguments)

/-- A type as it may be written. -/
structure TypeExpression where
  name : QualifiedName
  arguments : Arguments
  /-- The number of pairs of array brackets. -/
  dimensions : Nat

/-- The lexemes before the type that bounds a wildcard. -/
def boundLexemes : Option Bound → List Lexeme
  | none => []
  | some bound => [.mark '?', .word bound.word]

namespace Arguments

/-- The comma before arguments that are not the first. -/
def separator : Arguments → List Lexeme
  | .nil => []
  | _ => [.mark ',']

/-- The lexemes of arguments, without the brackets around them. -/
def lexemes : Arguments → List Lexeme
  | .nil => []
  | .wildcard next => .mark '?' :: (next.separator ++ next.lexemes)
  | .type bound name own dimensions next =>
    boundLexemes bound ++ (name.lexemes ++ (enclosed own.lexemes ++
      (arrayBrackets dimensions ++ (next.separator ++ next.lexemes))))

/-- Whether no wildcard is bounded. -/
def isUnbounded : Arguments → Bool
  | .nil => true
  | .wildcard next => next.isUnbounded
  | .type bound _ own _ next => bound.isNone && own.isUnbounded && next.isUnbounded

end Arguments

namespace TypeExpression

/-- The lexemes of a type. -/
def lexemes (t : TypeExpression) : List Lexeme :=
  t.name.lexemes ++ (enclosed t.arguments.lexemes ++ arrayBrackets t.dimensions)

/-- Whether no wildcard is bounded. -/
def isUnbounded (t : TypeExpression) : Bool := t.arguments.isUnbounded

/-- A type without blanks other than those around `extends` and `super`;
the `?` comes right before them. -/
def text (t : TypeExpression) : String := String.ofList (spelled false t.lexemes)

/-- What stands between the blanks of a type. -/
def tokens (t : TypeExpression) : List String :=
  (pieces ' ' (spelled false t.lexemes)).map String.ofList

/-- The field that a declaration without modifiers declares. -/
def field (t : TypeExpression) (x : Name) : Member where
  name := x.text
  type := some t.text
  isFinal := false
  access := .packageAccess
  isStatic := false

end TypeExpression

/-! ## Reading -/

/-- Type arguments can stand between angle brackets. -/
theorem Arguments.inner (a : Arguments) : Inner a.lexemes := by
  have hseparator : ∀ next : Arguments, Inner next.separator := by
    intro next
    cases next with
    | nil => exact .nil
    | wildcard next => exact .mark (by decide)
    | type bound name own dimensions next => exact .mark (by decide)
  induction a with
  | nil => exact .nil
  | wildcard next ih => exact (Inner.mark (by decide)).append ((hseparator next).append ih)
  | type bound name own dimensions next ihOwn ihNext =>
      have hbound : Inner (boundLexemes bound) := by
        cases bound with
        | none => exact .nil
        | some bound => exact .mark_word (by decide) bound.word
      exact hbound.append ((Inner.name name).append (ihOwn.enclosed.append
        ((Inner.arrayBrackets dimensions).append ((hseparator next).append ihNext))))

/-- **A type is one token, or several if a word comes after a word in
it**, whatever blanks it is laid out with. -/
theorem takes_typeExpression (t : TypeExpression) {k : OpenStatement} (hangles : k.angles = 0) :
    Takes Lexeme.Follows k t.lexemes (k.takeAll t.tokens) := by
  have hinner : betweenAngles 0 false t.arguments.lexemes = true := by
    have hnone : ∀ named, betweenAngles 0 named [] = true := fun _ => rfl
    simpa using t.arguments.inner 0 [] hnone false
  exact takes_spelled t.name hinner t.dimensions hangles

/-! ## Bounds -/

/-- The bound of a wildcard brings two words together. -/
theorem Meets.bound (bound : Option Bound) (q : QualifiedName) :
    Meets false (boundLexemes bound ++ q.lexemes) bound.isSome := by
  cases bound with
  | none => exact name q
  | some bound =>
      intro ls hls
      have hname : Meets true q.lexemes true := name q
      have hrest := hname ls hls
      simp [boundLexemes, wordsMeet, hrest]

/-- Only bounds bring words together in type arguments. -/
theorem Arguments.meets (a : Arguments) : Meets false a.lexemes (!a.isUnbounded) := by
  have hseparator : ∀ (next : Arguments) (named : Bool),
      Meets false next.lexemes (!next.isUnbounded) →
        Meets named (next.separator ++ next.lexemes) (!next.isUnbounded) := by
    intro next named h
    cases next with
    | nil => exact .nil
    | wildcard next => exact .cons_mark ',' h
    | type bound name own dimensions next => exact .cons_mark ',' h
  induction a with
  | nil => exact .nil
  | wildcard next ih => exact .cons_mark '?' (hseparator next false ih)
  | type bound name own dimensions next ihOwn ihNext =>
      have htype := (Meets.bound bound name).append fun _ => (ihOwn.enclosed).append fun _ =>
        (Meets.arrayBrackets dimensions).append fun named => hseparator next named ihNext
      have hmeet : (!(Arguments.type bound name own dimensions next).isUnbounded) =
          (bound.isSome || (!own.isUnbounded || (false || !next.isUnbounded))) := by
        cases bound <;> simp [isUnbounded]
      rw [hmeet, lexemes, ← List.append_assoc]
      exact htype

/-- What comes after the name of a type: nothing, or a mark first. -/
def MarkedTail (tail : List Char) : Prop :=
  tail = [] ∨ ∃ m ∈ ['.', '<', '['], ∃ others, tail = m :: others

/-- The readers do not act on a name with a mark after it. -/
theorem MarkedTail.free {tail : List Char} (h : MarkedTail tail) (n : Name) :
    reservedWords.contains (String.ofList (n.text.toList ++ tail)) = false ∧
      (String.ofList (n.text.toList ++ tail)).toList.head? ≠ some '<' := by
  obtain ⟨c, cs, hname, hplain, _⟩ := n.exists_cons
  constructor
  · rcases h with rfl | ⟨m, hm, others, rfl⟩
    · simpa using n.free
    · have hmark : ∀ d ∈ ['.', '<', '['], d ∈ ['.', ',', '<', '['] := by decide
      exact not_reserved_of_mark (c := m) (by simp) (hmark m hm)
  · rw [String.toList_ofList, hname, List.cons_append, List.head?_cons]
    rintro h
    cases h
    exact absurd hplain (by decide)

namespace TypeExpression

theorem inner (t : TypeExpression) : Inner t.lexemes :=
  (Inner.name t.name).append (t.arguments.inner.enclosed.append (.arrayBrackets t.dimensions))

theorem marks (t : TypeExpression) : ∀ c, Lexeme.mark c ∈ t.lexemes → isMark c = true := by
  have hmarks := isMark_of_betweenAngles (t.inner 0 [] (fun _ => rfl) false)
  rwa [List.append_nil] at hmarks

/-- Only bounds bring words together in a type. -/
theorem wordsMeet_lexemes (t : TypeExpression) : wordsMeet false t.lexemes = !t.isUnbounded := by
  have hname : Meets false t.name.lexemes false := .name t.name
  have hmeets := hname.append fun _ =>
    (t.arguments.meets.enclosed).append fun _ => Meets.arrayBrackets t.dimensions
  have hnone := hmeets [] fun _ => rfl
  simpa [lexemes, isUnbounded, wordsMeet] using hnone

/-- A type without bounds is one token. -/
theorem tokens_of_isUnbounded {t : TypeExpression} (h : t.isUnbounded = true) :
    t.tokens = [t.text] := by
  have hspelled := spelled_of_betweenAngles (t.inner 0 [] (fun _ => rfl) false)
  rw [List.append_nil, t.wordsMeet_lexemes, h] at hspelled
  rw [tokens, pieces_of_not_mem (by simpa using hspelled)]
  rfl

/-- A type with bounds ends its first token before the first bound. -/
theorem tokens_of_not_isUnbounded {t : TypeExpression} (h : t.isUnbounded = false) :
    ∃ before c after second others, t.text.toList = before ++ ' ' :: c :: after ∧
      ' ' ∉ before ∧ isPlain c = true ∧
        t.tokens = String.ofList before :: String.ofList (c :: second) :: others := by
  have hspelled := spelled_of_betweenAngles (t.inner 0 [] (fun _ => rfl) false)
  rw [List.append_nil, t.wordsMeet_lexemes, h] at hspelled
  obtain ⟨before, c, after, htext, hbefore, hc⟩ := hspelled
  have hblank : c ≠ ' ' := by rintro rfl; exact absurd hc (by decide)
  obtain ⟨piece, others, hpieces⟩ := List.exists_cons_of_ne_nil (pieces_ne_nil ' ' after)
  refine ⟨before, c, after, piece, others.map String.ofList, by simp [text, htext], hbefore, hc, ?_⟩
  rw [tokens, htext, pieces_append hbefore, pieces, if_neg hblank, hpieces]
  rfl

/-- After the name of a type comes a mark or nothing. -/
theorem text_eq_append (t : TypeExpression) :
    ∃ tail, t.text.toList = t.name.first.text.toList ++ tail ∧ MarkedTail tail := by
  refine ⟨spelled true (dotted t.name.more ++
    (enclosed t.arguments.lexemes ++ arrayBrackets t.dimensions)), ?_, ?_⟩
  · simp [text, lexemes, QualifiedName.lexemes, spelled]
  · cases t.name.more with
    | cons w ws => exact .inr ⟨'.', by decide, _, rfl⟩
    | nil =>
        cases t.arguments.lexemes with
        | cons x xs => exact .inr ⟨'<', by decide, _, rfl⟩
        | nil =>
            cases t.dimensions with
            | succ n => exact .inr ⟨'[', by decide, _, rfl⟩
            | zero => exact .inl rfl

/-- The first token of a type that is cut begins with the name and a mark
after it. -/
theorem markedTail_of_blank (t : TypeExpression) {before after : List Char}
    (htext : t.text.toList = before ++ ' ' :: after) :
    ∃ tail, before = t.name.first.text.toList ++ tail ∧ MarkedTail tail := by
  have hblank := t.name.first.not_mem (c := ' ') (by decide)
  obtain ⟨tail, hname, htail⟩ := t.text_eq_append
  rw [hname] at htext
  rcases htail with rfl | ⟨m, hm, others, rfl⟩
  · rw [List.append_nil] at htext
    exact absurd (by rw [htext]; simp) hblank
  have hne : m ≠ ' ' := by rintro rfl; exact absurd hm (by decide)
  rcases List.append_eq_append_iff.1 htext with ⟨part, hbefore, hpart⟩ | ⟨part, hfirst, hpart⟩
  · cases part with
    | nil => exact absurd (List.cons.inj hpart).1 hne
    | cons d part =>
        obtain ⟨rfl, -⟩ := List.cons.inj hpart
        exact ⟨_, hbefore, .inr ⟨m, hm, part, rfl⟩⟩
  · cases part with
    | nil => exact absurd (List.cons.inj hpart).1.symm hne
    | cons d part =>
        obtain ⟨rfl, -⟩ := List.cons.inj hpart
        exact absurd (by rw [hfirst]; simp) hblank

/-- No parenthesis is in a type. -/
theorem parenthesis_not_mem (t : TypeExpression) : ∀ token ∈ t.tokens, token ≠ "(" := by
  have hspelled : ∀ {depth : Nat} {named : Bool} {ls : List Lexeme},
      betweenAngles depth named ls = true → '(' ∉ spelled named ls := by
    intro depth named ls h
    induction ls generalizing depth named with
    | nil => simp [spelled]
    | cons x ls ih =>
        cases x with
        | literal q => simp [betweenAngles] at h
        | word w =>
            simp only [betweenAngles, Bool.and_eq_true] at h
            have hword := w.not_mem (c := '(') (by decide)
            cases named <;> simp [spelled, hword, ih h.2]
        | mark c =>
            obtain ⟨d, hc, hls⟩ := betweenAngles_mark h
            have hne : '(' ≠ c := by rintro rfl; exact absurd hc.mem (by decide)
            simp [spelled, ih hls, hne]
  rintro token htoken rfl
  obtain ⟨piece, hpiece, hparenthesis⟩ := List.mem_map.1 htoken
  have hin : '(' ∈ piece := by rw [← String.toList_ofList (l := piece), hparenthesis]; decide
  have hnot := hspelled (t.inner 0 [] (fun _ => rfl) false)
  rw [List.append_nil] at hnot
  exact hnot (mem_of_mem_pieces hpiece hin)

end TypeExpression

/-! ## Fields -/

/-- A text without its blanks. -/
def unspaced (text : String) : String := String.ofList (text.toList.filter (· != ' '))

/-- A field of a type and a name. -/
theorem variablesOf_name (type : String) (x : Name) :
    Modifiers.absent.variablesOf type x.text = if x.isDeclared then
      [{ name := x.text, type := some type, isFinal := false, access := .packageAccess,
         isStatic := false }] else [] := by
  have hnames := nameList_namesAfter x []
  simp only [namesAfter, String.append_empty, List.map_cons, List.map_nil] at hnames
  rw [Modifiers.variablesOf, hnames]
  cases hdeclared : x.isDeclared with
  | false => simp [x.isDeclarable_eq, hdeclared]
  | true =>
      simp [x.isDeclarable_eq, hdeclared, Modifiers.member, Member.declare, Word.declare_eq,
        Modifiers.absent]

/-- A declaration of a field is one statement. -/
theorem TypeExpression.scan_field (t : TypeExpression) (x : Name) {more : List Lexeme}
    {text rest : List Char}
    (hlaid : Laid (t.lexemes ++ .word x.toWord :: .mark ';' :: more) text rest) :
    ∃ after, Laid more after rest ∧
      scan text = some (⟨t.tokens ++ [x.text], .semicolon⟩, after) := by
  have htakes : Takes Lexeme.Follows start (t.lexemes ++ [.word x.toWord])
      ((start.takeAll t.tokens).take x.text) := by
    apply (takes_typeExpression t rfl).append (takes_word _ x.toWord) (by simp)
    rintro y ⟨⟩
    trivial
  have hslash : (t.lexemes ++ [Lexeme.word x.toWord]).head? ≠ some (.mark '/') := by
    simp [TypeExpression.lexemes, QualifiedName.lexemes]
  have hsplit : t.lexemes ++ .word x.toWord :: .mark ';' :: more =
      (t.lexemes ++ [.word x.toWord]) ++ .mark ';' :: more := by simp
  rw [hsplit] at hlaid
  exact htakes.scan_semicolon (by simp [Lexeme.Follows]) hslash rfl hlaid

/-- Two tokens that are no modifiers declare fields. -/
theorem reading_of_free {first second : String} {others : List String}
    (hfree : reservedWords.contains first = false) (hangle : first.toList.head? ≠ some '<')
    (hparenthesis : ∀ token ∈ second :: others, token ≠ "(") :
    Reading.ofTokens .typeBody (first :: second :: others) =
      .declaring (.fields (Modifiers.absent.variablesOf first second)) := by
  rw [Reading.ofTokens, Reading.ofTokensAfter_member hfree hangle (by simp)]
  have hsecond := hparenthesis second List.mem_cons_self
  have hothers : others.head? ≠ some "(" := by
    intro h
    exact hparenthesis "(" (List.mem_cons_of_mem second (List.mem_of_head? h)) rfl
  rw [Reading.member, Modifiers.declare_variables hsecond hothers]
  simp

/-- What stands before a bound is not the text with the bound, whatever brackets
are written after it: the bound begins with a character that is no bracket. -/
theorem unspaced_ne_of_bound {before after brackets : List Char} {c : Char}
    (hc : isPlain c = true) (hbrackets : ∀ d ∈ brackets, isArrayBracket d = true) :
    unspaced (String.ofList (before ++ brackets)) ≠
      unspaced (String.ofList (before ++ ' ' :: c :: after)) := by
  intro h
  have hblank : c ≠ ' ' := by rintro rfl; exact absurd hc (by decide)
  have hchars := congrArg String.toList h
  simp only [unspaced, String.toList_ofList, List.filter_append,
    List.append_cancel_left_eq] at hchars
  have hin : c ∈ brackets.filter (· != ' ') := by simp [hchars, hblank]
  have hbracket := hbrackets c (List.mem_filter.1 hin).1
  have hcases : c = '[' ∨ c = ']' := by simpa [isArrayBracket] using hbracket
  rcases hcases with rfl | rfl <;> exact absurd hc (by decide)

/-- What a declaration of a field says in a type body: without bounds it
declares the field, with bounds nothing of the type. -/
theorem TypeExpression.reading_field (t : TypeExpression) (x : Name) : ∃ fields,
    Reading.ofTokens .typeBody (t.tokens ++ [x.text]) = .declaring (.fields fields) ∧
      (t.isUnbounded = true → fields = if x.isDeclared then [t.field x] else []) ∧
        (t.isUnbounded = false → (∀ first ∈ t.tokens.head?, unspaced first ≠ unspaced t.text) ∧
          ∀ m ∈ fields, m.type.map unspaced ≠ some (unspaced t.text)) := by
  have hparenthesis := t.parenthesis_not_mem
  have hx : x.text ≠ "(" := by
    intro h
    exact absurd (by simp [h]) (x.not_mem (c := '(') (by decide))
  cases hunbounded : t.isUnbounded with
  | true =>
      obtain ⟨tail, htext, htail⟩ := t.text_eq_append
      have hfree := htail.free t.name.first
      rw [← htext, String.ofList_toList] at hfree
      refine ⟨_, ?_, fun _ => variablesOf_name t.text x, by simp⟩
      rw [tokens_of_isUnbounded hunbounded]
      exact reading_of_free hfree.1 hfree.2 (by simpa using hx)
  | false =>
      obtain ⟨before, c, after, second, others, htext, hbefore, hc, htokens⟩ :=
        tokens_of_not_isUnbounded hunbounded
      obtain ⟨tail, hname, htail⟩ := t.markedTail_of_blank htext
      have hfree := htail.free t.name.first
      rw [← hname] at hfree
      rw [htokens] at hparenthesis ⊢
      -- The bound, which is not in the first token, begins with `c`.
      have hdiffers (brackets : List Char) (hbrackets : ∀ d ∈ brackets, isArrayBracket d = true) :
          unspaced (String.ofList (before ++ brackets)) ≠ unspaced t.text := by
        rw [← String.ofList_toList (s := t.text), htext]
        exact unspaced_ne_of_bound hc hbrackets
      refine ⟨_, reading_of_free hfree.1 hfree.2 ?_, by simp, fun _ => ⟨?_, ?_⟩⟩
      · intro token htoken
        rcases List.mem_cons.1 htoken with rfl | hin
        · exact hparenthesis _ (by simp)
        · rcases List.mem_append.1 hin with hin | hin
          · exact hparenthesis token (by simp [hin])
          · rw [List.mem_singleton.1 hin]
            exact hx
      · rintro first ⟨⟩
        simpa using hdiffers [] (by simp)
      · intro m hm
        obtain ⟨name, _, rfl⟩ := List.mem_map.1 hm
        have hbrackets : ∀ d ∈ takeTrailing isArrayBracket name.toList,
            isArrayBracket d = true := by
          intro d hd
          exact List.all_eq_true.1 List.all_takeWhile d (List.mem_reverse.1 hd)
        have hnot := hdiffers _ hbrackets
        rw [String.ofList_append] at hnot
        simpa [Modifiers.member, Member.declare, Variable.declare] using hnot

/-- **A type is one token as long as no wildcard in it is bounded.**  The
declaration of a field `x` of type `t` is read as the pieces of `t` and `x`.
Without bounds the pieces are `t` alone, and exactly the field is declared
(if `x` is an identifier to the readers); with bounds the first piece is
not `t`, and no field of type `t` is declared. -/
theorem TypeExpression.read_field (t : TypeExpression) (x : Name) (withLocals : Bool)
    {p : Progress} (hlevel : p.nesting.level = .typeBody) {more : List Lexeme}
    {text rest : List Char}
    (hlaid : Laid (t.lexemes ++ .word x.toWord :: .mark ';' :: more) text rest) :
    ∃ after fields, Laid more after rest ∧
      scan text = some (⟨t.tokens ++ [x.text], .semicolon⟩, after) ∧
        p.read withLocals text =
          (p.mapRecord (TypeRecord.addFields fields)).read withLocals after ∧
            (t.isUnbounded = true →
              t.tokens = [t.text] ∧ fields = if x.isDeclared then [t.field x] else []) ∧
              (t.isUnbounded = false →
                (∀ first ∈ t.tokens.head?, unspaced first ≠ unspaced t.text) ∧
                  ∀ m ∈ fields, m.type.map unspaced ≠ some (unspaced t.text)) := by
  obtain ⟨after, hafter, hscan⟩ := t.scan_field x hlaid
  obtain ⟨fields, hreading, hunbounded, hbounded⟩ := t.reading_field x
  refine ⟨after, fields, hafter, hscan, ?_, fun h => ⟨tokens_of_isUnbounded h, hunbounded h⟩,
    hbounded⟩
  have hfields : (fun record : TypeRecord => fields.foldl TypeRecord.addField record) =
      TypeRecord.addFields fields := by
    funext record
    exact foldl_addField _ record
  rw [Progress.read_of_scan hscan, hlevel, hreading]
  simp [Progress.readAfter, Reading.declaring, Progress.declare, hfields]

/-- The name of one word in a type. -/
def QualifiedName.ofName (n : Name) : QualifiedName := ⟨n, []⟩

/-- The type `Map<?,List<T[]>>`. -/
def entries : TypeExpression where
  name := .ofName ⟨⟨"Map", .refl true⟩, .refl false⟩
  arguments := .wildcard (.type none (.ofName ⟨⟨"List", .refl true⟩, .refl false⟩)
    (.type none (.ofName ⟨⟨"T", .refl true⟩, .refl false⟩) .nil 1 .nil) 0 .nil)
  dimensions := 0

theorem TypeExpression.read_field_entries : ∃ after,
    Block.insideClass.nesting.level = .typeBody ∧
      scan "Map < ? , List < T [ ] > > all ;".toList =
        some (⟨["Map<?,List<T[]>>", "all"], .semicolon⟩, after) ∧
        Block.insideClass.read false "Map < ? , List < T [ ] > > all ;".toList =
          (Block.insideClass.mapRecord (TypeRecord.addFields
            [entries.field ⟨⟨"all", .refl true⟩, .refl false⟩])).read false after := by
  have hmarks : ∀ c, Lexeme.mark c ∈ entries.lexemes ++ [.word ⟨"all", .refl true⟩, .mark ';'] →
      isMark c = true := by
    intro c hc
    rcases List.mem_append.1 hc with hc | hc
    · exact entries.marks c hc
    · have hsemicolon : c = ';' := by simpa using hc
      rw [hsemicolon]
      decide
  have hlaid := laid_spaced hmarks
  have htext : spaced (entries.lexemes ++ [.word ⟨"all", .refl true⟩, .mark ';']) =
      "Map < ? , List < T [ ] > > all ;".toList := by decide +kernel
  rw [htext] at hlaid
  have hlevel : Block.insideClass.nesting.level = .typeBody := by decide +kernel
  obtain ⟨after, fields, _, hscan, hread, hunbounded, _⟩ :=
    read_field entries ⟨⟨"all", .refl true⟩, .refl false⟩ false hlevel hlaid
  obtain ⟨htokens, hfields⟩ := hunbounded (by decide)
  have hdeclared : Name.isDeclared ⟨⟨"all", .refl true⟩, .refl false⟩ = true := by decide +kernel
  rw [hdeclared, if_pos rfl] at hfields
  have htype : entries.text = "Map<?,List<T[]>>" := by decide +kernel
  rw [htokens, htype] at hscan
  rw [hfields] at hread
  exact ⟨after, hlevel, hscan, hread⟩

/-- The type `List<? extends T>`. -/
def bounded : TypeExpression where
  name := .ofName ⟨⟨"List", .refl true⟩, .refl false⟩
  arguments := .type (some .upper) (.ofName ⟨⟨"T", .refl true⟩, .refl false⟩) .nil 0 .nil
  dimensions := 0

/-- A field whose type has a bounded wildcard is lost. -/
theorem TypeExpression.not_field_bounded :
    String.ofList (spaced bounded.lexemes) = "List < ? extends T >" ∧
      scan "List < ? extends T > x ;".toList =
        some (⟨["List<?extends", "T>", "x"], .semicolon⟩, []) ∧
        (outline false "class A { List<? extends T> x; }").map TypeRecord.fields = [[]] ∧
          (outline false "class A { Map<? extends T[], S> x; }").map
            (fun record => record.fields.map Member.toVariable) =
              [[⟨"T", some "Map<?extends[]", false⟩]] := by
  decide +kernel

end JavaOutline