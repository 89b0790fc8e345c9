import JavaOutline.Proofs.Comments
import JavaOutline.Proofs.Layout.Tokens
import JavaOutline.Proofs.Lexical.Closed
import JavaOutline.Proofs.OwnText

/-!
# JavaOutline.Proofs.Annotations

Annotations in front of members, constants and parameters.

An annotation is a token that is dropped with its arguments, so it may stand
wherever reading stands between two tokens (`Annotation.read_eq`):

* in front of a statement, that is of a member or of the first constant;
* after the opening parenthesis of parameters;
* after a comma that ends the name of a parameter.

Texts that differ in such annotations are related by `Annotated`, which
scanning keeps (`Annotated.keptByScan`), so they are read into the same
registry.  Two marks take the annotation for a part of a token: the comma
after a constant, and the bracket that type parameters begin with, if the
annotation has no arguments.  What becomes of the type parameters then is left
to `Annotation.precedes`.
-/

namespace JavaOutline

open Text OpenStatement

/-! ## Annotations -/

/-- The arguments of an annotation: what stands between its parentheses. -/
structure AnnotationArguments where
  text : List Char
  closed : Closed [('(', ')'), ('\x7b', '\x7d')] text

/-- An annotation. -/
structure Annotation where
  /-- The first part of the name. -/
  first : Word
  /-- The parts of the name after dots. -/
  more : List Word
  arguments : Option AnnotationArguments

namespace Annotation

/-- The parentheses after the name, and what stands between them. -/
def argumentText (a : Annotation) : List Char :=
  match a.arguments with
  | none => []
  | some b => '(' :: (b.text ++ [')'])

/-- An annotation as it is written. -/
def text (a : Annotation) : List Char :=
  '@' :: (a.first.text.toList ++ ((a.more.flatMap fun w => '.' :: w.text.toList) ++ a.argumentText))

/-- Whether an annotation keeps apart from the text after it: no mark there
takes the annotation for a part of its token.  If the annotation has
arguments, type parameters may follow.  Where they join the annotation, so that
both are dropped, is not said here but by `Annotation.precedes`. -/
def fits (a : Annotation) (text : List Char) : Bool :=
  match skipGaps text with
  | [] => true
  | c :: rest =>
    if mayJoin c then a.arguments.isSome && c == '<' && !rest.head?.any isBlank
    else a.arguments.isSome || c != '('

end Annotation

/-! ## Between tokens -/

variable {s : OpenStatement} {a : Annotation} {text rest : List Char}

/-- Whether the first mark of a text is read as well from the middle of a
statement as from its beginning. -/
def isSteady (text : List Char) : Bool :=
  match skipGaps text with
  | [] => true
  | c :: rest => !mayJoin c || c == '<' && !rest.head?.any isBlank

theorem Annotation.isSteady_of_fits (h : a.fits text = true) : isSteady text = true := by
  unfold fits at h
  unfold isSteady
  split
  · rfl
  · next c rest htext =>
      rw [htext] at h
      cases hjoin : mayJoin c <;> simp_all

namespace OpenStatement

/-- What comes after blanks and comments is read from there. -/
theorem read_gap {c : Char} (hgap : isBlank c = true ∨ c = '/') (rest : List Char) :
    s.read (c :: rest) =
      match skipGaps (c :: rest) with
      | [] => none
      | d :: tail => (s.boundary d tail).1.read (s.boundary d tail).2 := by
  rw [read_cons, step, if_pos hgap]
  cases skipGaps (c :: rest) <;> rfl

/-- Type parameters at the beginning of a token. -/
theorem read_opening (hcurrent : s.current = "") (hblank : rest.head?.any isBlank = false) :
    (s.boundary '<' rest).1.read (s.boundary '<' rest).2 = s.read ('<' :: rest) := by
  have hskip : skipBlanks rest = rest := by
    cases rest with
    | nil => rfl
    | cons c rest => exact skipBlanks_cons_of_not_isBlank (by simpa using hblank) rest
  have hmodifier : mayPrecedeTypeParameters "" = false := by decide
  have hjoint : s.boundary '<' rest = ((s.countAngle '<').push '<', rest) := by
    rw [boundary, if_pos (by decide), joint]
    dsimp only
    rw [if_neg (by simp [hcurrent, hmodifier]), hskip,
      if_pos (by simp [joins, closesToken])]
  rw [hjoint, read_cons, step, if_neg (by decide), if_neg (by simp [hcurrent]),
    if_neg (by decide), if_neg (by decide), if_neg (by decide), if_neg (by decide), if_pos rfl]

/-- Between two tokens blanks and comments do not matter. -/
theorem read_skipGaps (hcurrent : s.current = "") (hsteady : isSteady text = true) :
    s.read text = s.read (skipGaps text) := by
  cases text with
  | nil => rw [skipGaps_nil]
  | cons c rest =>
      by_cases hgap : isBlank c = true ∨ c = '/'
      · rw [read_gap hgap]
        unfold isSteady at hsteady
        cases hgaps : skipGaps (c :: rest) with
        | nil => rw [OpenStatement.read]
        | cons d tail =>
            rw [hgaps] at hsteady
            dsimp only
            cases hjoin : mayJoin d with
            | false =>
                have hat : s.atAnnotation = false := by simp [ atAnnotation, hcurrent]
                rw [boundary_of_not_mayJoin hjoin hat, endToken_of_current_eq_empty hcurrent]
            | true =>
                simp only [hjoin, Bool.not_true, Bool.false_or, Bool.and_eq_true, beq_iff_eq,
                  Bool.not_eq_true'] at hsteady
                obtain ⟨rfl, hblank⟩ := hsteady
                exact read_opening hcurrent hblank
      · rw [not_or] at hgap
        rw [skipGaps_cons_of_code (by simpa using hgap.1) hgap.2]

/-- Between two tokens blanks do not matter. -/
theorem read_blanks_append_of_isSteady {run : List Char} (hrun : AllBlank run)
    (hcurrent : s.current = "") (hsteady : isSteady text = true) :
    s.read (run ++ text) = s.read text := by
  have hgaps : skipGaps (run ++ text) = skipGaps text := skipGaps_blanks_append hrun text
  have hsteady' : isSteady (run ++ text) = true := by rwa [isSteady, hgaps]
  rw [read_skipGaps hcurrent hsteady', read_skipGaps hcurrent hsteady, hgaps]

end OpenStatement

/-! ## Reading an annotation -/

/-- A dot and a word go on with the token. -/
theorem read_dot_word (w : Word) (hcurrent : s.current ≠ "") (rest : List Char) :
    s.read ('.' :: (w.text.toList ++ rest)) = (s.extend ("." ++ w.text)).read rest := by
  obtain ⟨c, cs, hw, hplain, _⟩ := w.exists_cons
  obtain ⟨hblank, _⟩ := isPlain_iff.1 hplain
  have hskip : skipBlanks (w.text.toList ++ rest) = w.text.toList ++ rest := by
    rw [hw, List.cons_append, skipBlanks_cons_of_not_isBlank hblank]
  have hjoint : s.boundary '.' (w.text.toList ++ rest) = (s.push '.', w.text.toList ++ rest) := by
    rw [boundary, if_pos (by decide), joint]
    dsimp only
    rw [if_neg (by simp), hskip, if_pos (by simp [joins, closesToken])]
    rfl
  rw [read_interrupting hcurrent (by decide), hjoint, read_word_append]
  congr 1
  simp [extend, push, ← String.append_assoc]
  rfl

/-- The token of an annotation is not empty. -/
theorem ne_empty_of_head? {token : String} (htoken : token.toList.head? = some '@') :
    token ≠ "" := by
  rintro rfl
  cases htoken

/-- The parts of a name after its first go on with the token. -/
theorem read_nameParts (ws : List Word) (hat : s.current.toList.head? = some '@') (rest : List Char) :
    ∃ token : String, token.toList.head? = some '@' ∧
      s.read ((ws.flatMap fun w => '.' :: w.text.toList) ++ rest) =
        ({ s with current := token } : OpenStatement).read rest := by
  induction ws generalizing s with
  | nil => exact ⟨s.current, hat, rfl⟩
  | cons w ws ih =>
      have hcurrent := ne_empty_of_head? hat
      obtain ⟨c, cs, hs⟩ := List.exists_cons_of_ne_nil (mt String.toList_eq_nil_iff.1 hcurrent)
      have hat' : (s.extend ("." ++ w.text)).current.toList.head? = some '@' := by
        rw [hs] at hat
        simpa [extend, hs] using hat
      obtain ⟨token, htoken, hread⟩ := ih hat'
      refine ⟨token, htoken, ?_⟩
      rw [List.flatMap_cons, List.cons_append, List.cons_append, List.append_assoc,
        read_dot_word w hcurrent, hread]
      rfl

/-- The name of an annotation is one token. -/
theorem Annotation.read_name (a : Annotation) (hcurrent : s.current = "") (rest : List Char) :
    ∃ token : String, token.toList.head? = some '@' ∧
      s.read ('@' :: (a.first.text.toList ++ ((a.more.flatMap fun w => '.' :: w.text.toList) ++
        rest))) = ({ s with current := token } : OpenStatement).read rest := by
  have hat : ((s.push '@').extend a.first.text).current.toList.head? = some '@' := by
    simp [extend, push, hcurrent]
  obtain ⟨token, htoken, hread⟩ := read_nameParts a.more hat rest
  refine ⟨token, htoken, ?_⟩
  rw [read_plain (by decide), read_word_append, hread]
  rfl

/-- The token of an annotation is dropped. -/
theorem OpenStatement.endToken_annotation {token : String} (htoken : token.toList.head? = some '@')
    (hcurrent : s.current = "") : ({ s with current := token } : OpenStatement).endToken = s := by
  have hat : atAnnotation ({ s with current := token } : OpenStatement) = true := by
    simp [ atAnnotation, htoken]
  rw [endToken, if_neg (ne_empty_of_head? htoken), if_pos hat, ← hcurrent]

namespace Annotation

/-- An annotation without arguments is a token that may go on. -/
theorem read_token (a : Annotation) (harguments : a.arguments = none) (hcurrent : s.current = "")
    (rest : List Char) : ∃ token : String, token.toList.head? = some '@' ∧
      s.read (a.text ++ ' ' :: rest) =
        ({ s with current := token } : OpenStatement).read (' ' :: rest) := by
  obtain ⟨token, htoken, hread⟩ := a.read_name hcurrent (' ' :: rest)
  refine ⟨token, htoken, ?_⟩
  rw [← hread]
  simp [ Annotation.text, argumentText, harguments]

/-- An annotation with arguments ends with their parenthesis. -/
theorem read_arguments (a : Annotation) (harguments : a.arguments.isSome = true)
    (hcurrent : s.current = "") (rest : List Char) :
    s.read (a.text ++ ' ' :: rest) = s.read (' ' :: rest) := by
  obtain ⟨b, hb⟩ := Option.isSome_iff_exists.1 harguments
  obtain ⟨token, htoken, hread⟩ := a.read_name hcurrent ('(' :: (b.text ++ ')' :: ' ' :: rest))
  have htext : a.text ++ ' ' :: rest = '@' :: (a.first.text.toList ++
      ((a.more.flatMap fun w => '.' :: w.text.toList) ++ '(' :: (b.text ++ ')' :: ' ' :: rest))) := by
    simp [ Annotation.text, argumentText, hb]
  have hclose : afterBracket '(' ')' 0 (b.text ++ ')' :: ' ' :: rest) = ' ' :: rest := by
    rw [b.closed.afterBracket_append (k := ('(', ')')) (by simp) (by simp [bracketKinds]) 0
      (by decide) (by decide)]
    exact afterBracket_zero_closing (k := ('(', ')')) (by decide) _
  have hat : atAnnotation ({ s with current := token } : OpenStatement) = true := by
    simp [ atAnnotation, htoken]
  rw [htext, hread, read_interrupting (ne_empty_of_head? htoken) (by decide), boundary,
    if_neg (by decide), if_pos ⟨rfl, hat⟩, endToken_annotation htoken hcurrent, hclose]

end Annotation

/-- **Between two tokens an annotation is passed over.** -/
theorem Annotation.read_eq (a : Annotation) (hcurrent : s.current = "") (hfits : a.fits text = true) :
    s.read (a.text ++ ' ' :: text) = s.read text := by
  have hsteady := isSteady_of_fits hfits
  have hblank : AllBlank [' '] := by decide
  cases harguments : a.arguments with
  | some b =>
      rw [a.read_arguments (by simp [harguments]) hcurrent]
      exact read_blanks_append_of_isSteady hblank hcurrent hsteady
  | none =>
      obtain ⟨token, htoken, hread⟩ := a.read_token harguments hcurrent text
      have hgaps : skipGaps (' ' :: text) = skipGaps text := skipGaps_blanks_append hblank text
      rw [hread, read_gap (.inl (by decide)), hgaps, read_skipGaps hcurrent hsteady]
      unfold fits at hfits
      cases htext : skipGaps text with
      | nil => rw [OpenStatement.read]
      | cons d tail =>
          rw [htext] at hfits
          simp only [harguments] at hfits
          have hjoin : mayJoin d = false := by
            cases hjoin : mayJoin d <;> simp_all
          have hparenthesis : d ≠ '(' := by simpa [hjoin] using hfits
          dsimp only
          rw [boundary, if_neg (by simp [hjoin]), if_neg (by simp [hparenthesis]),
            endToken_annotation htoken hcurrent]

/-! ## Places in a text -/

/-- Where reading stands. -/
inductive ReadingPlace where
  /-- In front of a statement. -/
  | front
  /-- Within a statement. -/
  | within (s : OpenStatement)

namespace ReadingPlace

/-- The first statement that is read from a place on, and what follows it. -/
def read : ReadingPlace → List Char → Option (Statement (List Char) × List Char)
  | front => scan
  | within s => s.read

/-- Whether reading stands between two tokens. -/
def isBetween : ReadingPlace → Bool
  | front => true
  | within s => s.current == ""

variable {o : ReadingPlace}

/-- Between two tokens blanks and comments do not matter; in front of a
statement they never do. -/
theorem read_gap_append {gap : List Char} (hgap : Gap gap) (ho : o.isBetween = true)
    (hsteady : isSteady text = true) : o.read (gap ++ text) = o.read text := by
  have hgaps : skipGaps (gap ++ text) = skipGaps text := hgap.skipGaps_append text
  cases o with
  | front => rw [read, scan, scan, hgaps]
  | within s =>
      have hcurrent : s.current = "" := by simpa [isBetween] using ho
      have hsteady' : isSteady (gap ++ text) = true := by rwa [isSteady, hgaps]
      rw [read, read_skipGaps hcurrent hsteady', read_skipGaps hcurrent hsteady, hgaps]

/-- **Between two tokens an annotation does not matter.** -/
theorem read_annotation_append (a : Annotation) (ho : o.isBetween = true)
    (hfits : a.fits text = true) : o.read (a.text ++ ' ' :: text) = o.read text := by
  cases o with
  | front =>
      have hself : skipGaps (a.text ++ ' ' :: text) = a.text ++ ' ' :: text :=
        skipGaps_cons_of_code (by decide) (by decide) _
      rw [read, scan, scan, hself, a.read_eq rfl hfits,
        read_skipGaps rfl ( Annotation.isSteady_of_fits hfits)]
  | within s => exact a.read_eq (by simpa [isBetween] using ho) hfits

end ReadingPlace

/-! ## Passing over -/

/-- A text in which braces are closed: a reader that passes over braces goes
on after it. -/
def Passed (p : List Char) : Prop :=
  ∀ depth q, afterBracket '\x7b' '\x7d' depth (p ++ q) = afterBracket '\x7b' '\x7d' depth q

/-- A text in which braces are closed, if the character `c` comes next. -/
def PassedUpTo (c : Char) (p : List Char) : Prop :=
  ∀ depth q, afterBracket '\x7b' '\x7d' depth (p ++ c :: q) =
    afterBracket '\x7b' '\x7d' depth (c :: q)

theorem Gap.passed {gap : List Char} (h : Gap gap) : Passed gap :=
  fun depth q => h.afterBracket_append _ _ depth q (by decide) (by decide)

/-- Closed braces are passed over, unless a slash comes last. -/
theorem Closed.passed {kinds : List (Char × Char)} (hk : ('\x7b', '\x7d') ∈ kinds)
    (hkinds : kinds ⊆ bracketKinds) {p : List Char} (h : Closed kinds p) {c : Char}
    (hc : c ∉ ['/', '*', '\x7b', '\x7d']) (hquote : isQuote c = false) : Passed (p ++ [c]) := by
  simp only [List.mem_cons, List.not_mem_nil, or_false, not_or] at hc
  obtain ⟨hslash, hstar, hopening, hclosing⟩ := hc
  intro depth q
  rw [List.append_assoc, List.singleton_append,
    h.afterBracket_append hk hkinds depth hslash hstar q,
    afterBracket_cons _ _ _ hslash hquote hopening hclosing]

/-- The kinds of brackets that are closed in an annotation. -/
def annotationKinds : List (Char × Char) := [('(', ')'), ('\x7b', '\x7d')]

theorem Annotation.closed_text (a : Annotation) : Closed annotationKinds a.text := by
  have hplain : ∀ c, isPlain c = true ∨ c = '.' → c ≠ '/' ∧ isQuote c = false ∧
      ∀ k ∈ annotationKinds, c ≠ k.1 ∧ c ≠ k.2 := by
    rintro c (hc | rfl)
    · obtain ⟨_, hquote, hslash, hinterrupts, hends⟩ := isPlain_iff.1 hc
      refine ⟨hslash, hquote, ?_⟩
      simp only [annotationKinds, List.forall_mem_cons, List.not_mem_nil, false_imp_iff,
        implies_true, and_true]
      refine ⟨⟨?_, ?_⟩, ?_, ?_⟩ <;> rintro rfl <;> revert hinterrupts hends <;> decide
    · decide
  have harguments : Closed annotationKinds a.argumentText := by
    unfold argumentText
    cases a.arguments with
    | none => exact .nil
    | some b => exact .block (k := ('(', ')')) (by decide) b.closed .nil
  have hname : a.text = ('@' :: (a.first.text.toList ++
      (a.more.flatMap fun w => '.' :: w.text.toList))) ++ a.argumentText := by
    simp [ Annotation.text]
  rw [hname]
  refine .code_append (fun c hc => hplain c ?_) harguments
  simp only [List.mem_cons, List.mem_append, List.mem_flatMap] at hc
  rcases hc with rfl | hc | ⟨w, _, rfl | hc⟩
  · exact .inl (by decide)
  · exact .inl (a.first.isPlain_of_mem hc)
  · exact .inr rfl
  · exact .inl (w.isPlain_of_mem hc)

theorem Annotation.passed (a : Annotation) : Passed (a.text ++ [' ']) :=
  a.closed_text.passed (by decide) (by decide) (by decide) (by decide)

/-! ## Annotated texts -/

/-- Whether reading a text leads from a place into a statement, if no mark
comes next that joins the token before it. -/
structure ReadingPlace.Leads (o : ReadingPlace) (p : List Char) (s : OpenStatement) : Prop where
  read_append : ∀ q, isSteady q = true → o.read (p ++ q) = s.read q
  passed : Passed p

/-- Two texts, read on from a place: the second one has annotations where
reading stands between two tokens. -/
inductive Annotated : ReadingPlace → List Char → List Char → Prop
  | same (o : ReadingPlace) (text : List Char) : Annotated o text text
  | inserted {o : ReadingPlace} {text text' : List Char} (a : Annotation)
      (ho : o.isBetween = true) (hfits : a.fits text' = true) (h : Annotated o text text') :
      Annotated o text (a.text ++ ' ' :: text')
  /-- Blanks and comments between two tokens. -/
  | gap {o : ReadingPlace} {gap text text' : List Char} (hgap : Gap gap) (ho : o.isBetween = true)
      (hsteady : isSteady text = true) (hsteady' : isSteady text' = true)
      (h : Annotated o text text') : Annotated o (gap ++ text) (gap ++ text')
  /-- A part of a statement. -/
  | part {o : ReadingPlace} {p text text' : List Char} {s : OpenStatement} (hp : o.Leads p s)
      (hsteady : isSteady text = true) (hsteady' : isSteady text' = true)
      (h : Annotated (.within s) text text') : Annotated o (p ++ text) (p ++ text')
  /-- The rest of a statement. -/
  | statement {o : ReadingPlace} {p text text' : List Char} {tokens : List String}
      {ending : Ending (List Char)} (hending : ending = .semicolon ∨ ending = .label)
      (hp : Passed p) (hread : ∀ q, o.read (p ++ q) = some (⟨tokens, ending⟩, q))
      (h : Annotated .front text text') : Annotated o (p ++ text) (p ++ text')
  /-- The rest of a statement up to the block that ends it. -/
  | block {o : ReadingPlace} {p text text' : List Char} {tokens : List String}
      (hp : PassedUpTo '\x7b' p)
      (hread : ∀ q, o.read (p ++ '\x7b' :: q) =
        some (⟨tokens, .block q (afterBracket '\x7b' '\x7d' 0 q)⟩, afterBracket '\x7b' '\x7d' 0 q))
      (h : Annotated .front text text') :
      Annotated o (p ++ '\x7b' :: text) (p ++ '\x7b' :: text')
  /-- The rest of a block. -/
  | closeBrace {o : ReadingPlace} {p text text' : List Char} {tokens : List String}
      (hp : PassedUpTo '\x7d' p)
      (hread : ∀ q, o.read (p ++ '\x7d' :: q) = some (⟨tokens, .closeBrace⟩, q))
      (h : Annotated .front text text') :
      Annotated o (p ++ '\x7d' :: text) (p ++ '\x7d' :: text')
  /-- A statement up to the body of a constant, which is passed over. -/
  | constantBody {o : ReadingPlace} {p body body' text text' : List Char} {s : OpenStatement}
      (hp : PassedUpTo '\x7b' p)
      (hread : ∀ q, o.read (p ++ '\x7b' :: q) = s.read (afterBracket '\x7b' '\x7d' 0 q))
      (hbody : Closed [('\x7b', '\x7d')] body) (hbody' : Closed [('\x7b', '\x7d')] body')
      (hbodies : Annotated .front body body') (h : Annotated (.within s) text text') :
      Annotated o (p ++ '\x7b' :: (body ++ '\x7d' :: text))
        (p ++ '\x7b' :: (body' ++ '\x7d' :: text'))

namespace Annotated

variable {o : ReadingPlace} {text' : List Char}

theorem of_eq (h : text = text') : Annotated o text text' := h ▸ .same o text

/-- The texts after a brace that is closed are annotated. -/
theorem afterBracket (h : Annotated o text text') (depth : Nat) :
    Annotated .front (JavaOutline.afterBracket '\x7b' '\x7d' depth text)
      (JavaOutline.afterBracket '\x7b' '\x7d' depth text') := by
  have hbrace : ('\x7b', '\x7d') ∈ bracketKinds := by decide
  have hopening := afterBracket_opening hbrace
  have hclosing := afterBracket_closing hbrace
  induction h generalizing depth with
  | same o text => exact .same _ _
  | @inserted _ _ text' a _ _ _ ih =>
      have hpassed := a.passed depth text'
      rw [List.append_assoc, List.singleton_append] at hpassed
      rw [hpassed]
      exact ih depth
  | gap hgap _ _ _ _ ih =>
      rw [hgap.passed, hgap.passed]
      exact ih depth
  | part hp _ _ _ ih =>
      rw [hp.passed, hp.passed]
      exact ih depth
  | statement _ hp _ _ ih =>
      rw [hp, hp]
      exact ih depth
  | block hp _ _ ih =>
      rw [hp, hp, hopening, hopening]
      exact ih (depth + 1)
  | closeBrace hp _ h ih =>
      rw [hp, hp]
      cases depth with
      | zero => rwa [afterBracket_zero_closing hbrace, afterBracket_zero_closing hbrace]
      | succ outer =>
          rw [hclosing, hclosing]
          exact ih outer
  | @constantBody _ p body body' text text' _ hp _ hbody hbody' _ _ _ ih =>
      have hover : ∀ {body text : List Char}, Closed [('\x7b', '\x7d')] body →
          JavaOutline.afterBracket '\x7b' '\x7d' depth (p ++ '\x7b' :: (body ++ '\x7d' :: text)) =
            JavaOutline.afterBracket '\x7b' '\x7d' depth text := by
        intro body text hbody
        rw [hp, hopening, hbody.afterBracket_append (k := ('\x7b', '\x7d')) (by simp)
          (by simp [bracketKinds]) _ (by decide) (by decide), hclosing]
      rw [hover hbody, hover hbody']
      exact ih depth

/-- From a place on, annotated texts are scanned alike. -/
theorem scanAlike (h : Annotated o text text') :
    ScanAlike (Annotated .front) (o.read text) (o.read text') := by
  induction h with
  | same o text =>
      cases o.read text with
      | none => exact .none
      | some scanned =>
          exact .some rfl (.refl (fun text => .same _ text) _) (.same _ scanned.2)
  | inserted a ho hfits _ ih =>
      rw [ReadingPlace.read_annotation_append a ho hfits]
      exact ih
  | gap hgap ho hsteady hsteady' _ ih =>
      rw [ReadingPlace.read_gap_append hgap ho hsteady,
        ReadingPlace.read_gap_append hgap ho hsteady']
      exact ih
  | part hp hsteady hsteady' _ ih =>
      rw [hp.read_append _ hsteady, hp.read_append _ hsteady']
      exact ih
  | statement hending _ hread h _ =>
      rw [hread, hread]
      rcases hending with rfl | rfl
      · exact .some rfl .semicolon h
      · exact .some rfl .label h
  | block _ hread h _ =>
      rw [hread, hread]
      exact .some rfl (.block h) (h.afterBracket 0)
  | closeBrace _ hread h _ =>
      rw [hread, hread]
      exact .some rfl .closeBrace h
  | constantBody _ hread hbody hbody' _ _ _ ih =>
      have hover : ∀ {body : List Char}, Closed [('\x7b', '\x7d')] body → ∀ text,
          JavaOutline.afterBracket '\x7b' '\x7d' 0 (body ++ '\x7d' :: text) = text := by
        intro body hbody text
        rw [hbody.afterBracket_append (k := ('\x7b', '\x7d')) (by simp) (by simp [bracketKinds]) 0
          (by decide) (by decide)]
        exact afterBracket_zero_closing (k := ('\x7b', '\x7d')) (by decide) text
      rw [hread, hread, hover hbody, hover hbody']
      exact ih

/-- Scanning keeps texts that differ in annotations. -/
theorem keptByScan : KeptByScan (Annotated .front) := fun _ _ h => h.scanAlike

end Annotated

end JavaOutline
