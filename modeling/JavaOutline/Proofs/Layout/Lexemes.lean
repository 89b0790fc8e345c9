import JavaOutline.Proofs.Lexical.Parts
import JavaOutline.Statement.Scan

/-!
# JavaOutline.Proofs.Layout.Lexemes

Texts that are written lexeme by lexeme.  A lexeme is a word, a literal or
a mark, and `Laid ls text rest` says that `text` begins with the lexemes
`ls`, with any blanks between them, and goes on with `rest`:

* `Laid.append`, `Laid.trans` — a text is laid out part by part;
* `Laid.skipBlanks` — blanks before a lexeme do not matter;
* `laid_spaced` — one blank between any two lexemes will do.
-/

namespace JavaOutline

open Text

/-! ## Lexemes -/

/-- A character that says nothing but itself, wherever it is read. -/
def isPlain (c : Char) : Bool :=
  !isBlank c && !isQuote c && c != '/' && !OpenStatement.interruptsName c &&
    !OpenStatement.mayEnd c

/-- The brackets, separators and other characters that are neither plain
nor blank nor quotes. -/
def isMark (c : Char) : Bool :=
  ['(', ')', '[', ']', '\x7b', '\x7d', '<', '>', '.', ',', '?', '=', ':', ';', '/'].contains c

/-- The marks other than braces. -/
def innerMarks : List Char :=
  ['(', ')', '[', ']', '<', '>', '.', ',', '?', '=', ':', ';', '/']

/-- Whether a text is read as a word: plain characters, which do not begin
an annotation. -/
def isWord (text : String) : Bool :=
  text != "" && text.toList.all isPlain && text.toList.head? != some '@'

/-- A name, a keyword, a number, or operators other than marks. -/
structure Word where
  text : String
  isWord : isWord text = true

/-- A string or character literal. -/
structure Literal where
  quote : Char
  content : List Char
  isQuote : isQuote quote = true
  escaped : Escaped quote content

/-- What a text is made of apart from blanks. -/
inductive Lexeme where
  | word (w : Word)
  | literal (l : Literal)
  /-- A bracket, a separator, or a slash that opens no comment. -/
  | mark (c : Char)

/-- Whether a text begins with neither a word nor a literal. -/
def Apart (text : List Char) : Prop :=
  ∀ c, text.head? = some c → isPlain c = false ∧ isQuote c = false

namespace Lexeme

/-- The characters of a lexeme. -/
def chars : Lexeme → List Char
  | .word w => w.text.toList
  | .literal l => l.quote :: (l.content ++ [l.quote])
  | .mark c => [c]

/-- Whether a lexeme keeps apart from the text that follows it: a blank
stands between a word and a word or literal, and no comment begins at a
slash. -/
def Fits : Lexeme → List Char → Prop
  | .word _, text => Apart text
  | .literal _, _ => True
  | .mark c, text =>
    isMark c = true ∧ (c = '/' → text.head? ≠ some '/' ∧ text.head? ≠ some '*')

end Lexeme

/-- Whether a text begins with some lexemes and goes on with another
text. -/
def Laid : List Lexeme → List Char → List Char → Prop
  | [], text, rest => ∃ run, AllBlank run ∧ text = run ++ rest
  | l :: ls, text, rest =>
    ∃ run after, AllBlank run ∧ text = run ++ (l.chars ++ after) ∧ l.Fits after ∧ Laid ls after rest

/-! ## Characters of lexemes -/

theorem isPlain_iff {c : Char} : isPlain c = true ↔
    isBlank c = false ∧ isQuote c = false ∧ c ≠ '/' ∧
      OpenStatement.interruptsName c = false ∧ OpenStatement.mayEnd c = false := by
  simp [isPlain, and_assoc]

/-- A mark is neither blank nor a quote. -/
theorem not_isBlank_of_isMark {c : Char} (h : isMark c = true) :
    isBlank c = false ∧ isQuote c = false := by
  rw [isMark, List.contains_iff_mem] at h
  revert c
  decide

theorem Word.ne_empty (w : Word) : w.text ≠ "" := by
  have h := w.isWord
  simp only [JavaOutline.isWord, Bool.and_eq_true, bne_iff_ne] at h
  exact h.1.1

theorem Word.isPlain_of_mem (w : Word) {c : Char} (h : c ∈ w.text.toList) : isPlain c = true := by
  have hw := w.isWord
  simp only [JavaOutline.isWord, Bool.and_eq_true, List.all_eq_true] at hw
  exact hw.1.2 c h

theorem Word.head?_ne (w : Word) : w.text.toList.head? ≠ some '@' := by
  have h := w.isWord
  simp only [JavaOutline.isWord, Bool.and_eq_true, bne_iff_ne] at h
  exact h.2

/-- A word has a first character, which is plain. -/
theorem Word.exists_cons (w : Word) :
    ∃ c cs, w.text.toList = c :: cs ∧ isPlain c = true ∧ c ≠ '@' := by
  cases hw : w.text.toList with
  | nil => exact absurd (String.toList_eq_nil_iff.1 hw) w.ne_empty
  | cons c cs =>
      have hplain := w.isPlain_of_mem (c := c) (by simp [hw])
      have hhead := w.head?_ne
      rw [hw] at hhead
      exact ⟨c, cs, rfl, hplain, by simpa using hhead⟩

/-- No lexeme of a laid out text begins with a blank. -/
theorem Lexeme.Fits.exists_cons {l : Lexeme} {after : List Char} (h : l.Fits after) :
    ∃ c cs, l.chars = c :: cs ∧ isBlank c = false := by
  cases l with
  | word w =>
      obtain ⟨c, cs, hw, hplain, _⟩ := w.exists_cons
      exact ⟨c, cs, hw, (isPlain_iff.1 hplain).1⟩
  | literal l => exact ⟨_, _, rfl, isBlank_eq_false_of_isQuote l.isQuote⟩
  | mark c => exact ⟨c, [], rfl, (not_isBlank_of_isMark h.1).1⟩

/-! ## Laying out -/

namespace Laid

variable {ls xs ys : List Lexeme} {l : Lexeme} {text rest : List Char}

theorem nil (rest : List Char) : Laid [] rest rest := ⟨[], by simp [AllBlank], rfl⟩

theorem blank {c : Char} (hc : isBlank c = true) (h : Laid ls text rest) :
    Laid ls (c :: text) rest := by
  have hcons : ∀ {run : List Char}, AllBlank run → AllBlank (c :: run) := by
    intro run hrun d hd
    rcases List.mem_cons.1 hd with rfl | hd
    · exact hc
    · exact hrun d hd
  cases ls with
  | nil =>
      obtain ⟨run, hrun, rfl⟩ := h
      exact ⟨c :: run, hcons hrun, rfl⟩
  | cons l ls =>
      obtain ⟨run, after, hrun, rfl, hfits, hls⟩ := h
      exact ⟨c :: run, after, hcons hrun, rfl, hfits, hls⟩

/-- A text is laid out part by part. -/
theorem append (h : Laid (xs ++ ys) text rest) : ∃ mid, Laid xs text mid ∧ Laid ys mid rest := by
  induction xs generalizing text with
  | nil => exact ⟨text, .nil text, h⟩
  | cons l xs ih =>
      obtain ⟨run, after, hrun, rfl, hfits, hls⟩ := h
      obtain ⟨mid, hxs, hys⟩ := ih hls
      exact ⟨mid, ⟨run, after, hrun, rfl, hfits, hxs⟩, hys⟩

/-- Blanks before a lexeme do not matter; without them the text begins
with the lexeme. -/
theorem skipBlanks (h : Laid (l :: ls) text rest) : ∃ after,
    Text.skipBlanks text = l.chars ++ after ∧ l.Fits after ∧ Laid ls after rest := by
  obtain ⟨run, after, hrun, rfl, hfits, hls⟩ := h
  obtain ⟨c, cs, hl, hc⟩ := hfits.exists_cons
  refine ⟨after, ?_, hfits, hls⟩
  rw [skipBlanks_blanks_append hrun, hl, List.cons_append, skipBlanks_cons_of_not_isBlank hc]

theorem of_skipBlanks (h : Laid (l :: ls) text rest) :
    Laid (l :: ls) (Text.skipBlanks text) rest := by
  obtain ⟨after, htext, hfits, hls⟩ := h.skipBlanks
  exact ⟨[], after, by simp [AllBlank], htext, hfits, hls⟩

theorem skipBlanks_skipBlanks (h : Laid (l :: ls) text rest) :
    Text.skipBlanks (Text.skipBlanks text) = Text.skipBlanks text := by
  obtain ⟨after, htext, hfits, _⟩ := h.skipBlanks
  obtain ⟨c, cs, hl, hc⟩ := hfits.exists_cons
  rw [htext, hl, List.cons_append, skipBlanks_cons_of_not_isBlank hc]

/-- The character that comes first after blanks. -/
theorem head?_skipBlanks (h : Laid (l :: ls) text rest) :
    (Text.skipBlanks text).head? = l.chars.head? := by
  obtain ⟨after, htext, hfits, _⟩ := h.skipBlanks
  obtain ⟨c, cs, hl, _⟩ := hfits.exists_cons
  rw [htext, hl, List.cons_append, List.head?_cons, List.head?_cons]

end Laid

/-- Before a mark a token does not go on. -/
theorem Laid.apart {c : Char} {ls : List Lexeme} {text rest : List Char}
    (hplain : isPlain c = false) (hlaid : Laid (.mark c :: ls) text rest) : Apart text := by
  obtain ⟨run, after, hrun, rfl, hfits, _⟩ := hlaid
  cases run with
  | nil =>
      rintro d ⟨⟩
      exact ⟨hplain, (not_isBlank_of_isMark hfits.1).2⟩
  | cons b run =>
      rintro d ⟨⟩
      have hblank : isBlank b = true := hrun b List.mem_cons_self
      exact ⟨by simp [isPlain, hblank], isQuote_eq_false_of_isBlank hblank⟩

/-! ## Part by part -/

/-- The text after some lexemes. -/
def past : List Lexeme → List Char → List Char
  | [], text => text
  | l :: ls, text => past ls ((skipBlanks text).drop l.chars.length)

theorem past_append (xs ys : List Lexeme) (text : List Char) :
    past (xs ++ ys) text = past ys (past xs text) := by
  induction xs generalizing text with
  | nil => rfl
  | cons x xs ih => exact ih _

/-- Blanks before lexemes do not matter. -/
theorem past_blanks_append {ls : List Lexeme} (hls : ls ≠ []) {run : List Char}
    (hrun : AllBlank run) (text : List Char) : past ls (run ++ text) = past ls text := by
  cases ls with
  | nil => exact absurd rfl hls
  | cons l ls => rw [past, past, skipBlanks_blanks_append hrun]

theorem past_skipBlanks {ls : List Lexeme} (hls : ls ≠ []) (text : List Char) :
    past ls (skipBlanks text) = past ls text := by
  rw [← past_blanks_append hls (allBlank_takeWhile text), skipBlanks,
    List.takeWhile_append_dropWhile]

theorem Laid.blanks_append {ls : List Lexeme} {run text rest : List Char} (hrun : AllBlank run)
    (h : Laid ls text rest) : Laid ls (run ++ text) rest := by
  induction run with
  | nil => exact h
  | cons c run ih =>
      exact (ih fun d hd => hrun d (List.mem_cons_of_mem c hd)).blank (hrun c List.mem_cons_self)

/-- A text is laid out in two parts. -/
theorem Laid.trans {xs ys : List Lexeme} {text mid rest : List Char} (hxs : Laid xs text mid)
    (hys : Laid ys mid rest) : Laid (xs ++ ys) text rest := by
  induction xs generalizing text with
  | nil =>
      obtain ⟨run, hrun, rfl⟩ := hxs
      exact hys.blanks_append hrun
  | cons x xs ih =>
      obtain ⟨run, after, hrun, rfl, hfits, hafter⟩ := hxs
      exact ⟨run, after, hrun, rfl, hfits, ih hafter⟩

/-- What a lexeme keeps apart from is the next character. -/
theorem Lexeme.Fits.append {l : Lexeme} {after : List Char} (h : l.Fits after)
    (hne : after ≠ []) (q : List Char) : l.Fits (after ++ q) := by
  obtain ⟨c, after, rfl⟩ := List.exists_cons_of_ne_nil hne
  cases l with
  | word w => exact h
  | literal l => trivial
  | mark d => exact h

/-- A text is laid out whatever comes after it, if the last lexeme keeps
apart from that. -/
theorem Laid.append_text {ls : List Lexeme} {text rest q : List Char}
    (hq : ∀ l ∈ ls.getLast?, l.Fits [] → l.Fits q) (h : Laid ls text rest) :
    Laid ls (text ++ q) (rest ++ q) := by
  induction ls generalizing text with
  | nil =>
      obtain ⟨run, hrun, rfl⟩ := h
      exact ⟨run, hrun, by simp⟩
  | cons l ls ih =>
      obtain ⟨run, after, hrun, rfl, hfits, hls⟩ := h
      have hlast : ∀ k ∈ ls.getLast?, k.Fits [] → k.Fits q := by
        intro k hk
        cases ls with
        | nil => cases hk
        | cons x ls => exact hq k hk
      refine ⟨run, after ++ q, hrun, by simp, ?_, ih hlast hls⟩
      by_cases hne : after = []
      · subst hne
        cases ls with
        | nil => exact hq l rfl hfits
        | cons x ls =>
            obtain ⟨_, _, _, hafter, hx, _⟩ := hls
            obtain ⟨c, cs, hchars, _⟩ := hx.exists_cons
            simp [hchars] at hafter
      · exact hfits.append hne q

/-- Blanks before a lexeme are followed by it whatever comes after the text. -/
theorem Laid.skipBlanks_append_text {l : Lexeme} {ls : List Lexeme} {text rest : List Char}
    (h : Laid (l :: ls) text rest) (q : List Char) :
    Text.skipBlanks (text ++ q) = Text.skipBlanks text ++ q := by
  obtain ⟨run, after, hrun, rfl, hfits, _⟩ := h
  obtain ⟨c, cs, hchars, hblank⟩ := hfits.exists_cons
  rw [List.append_assoc, skipBlanks_blanks_append hrun, skipBlanks_blanks_append hrun, hchars,
    List.cons_append, List.cons_append, skipBlanks_cons_of_not_isBlank hblank,
    skipBlanks_cons_of_not_isBlank hblank, List.cons_append]

/-- Where some lexemes end does not depend on what comes after the text. -/
theorem Laid.past_append_text {xs ys : List Lexeme} {text rest : List Char}
    (h : Laid (xs ++ ys) text rest) (q : List Char) :
    JavaOutline.past xs (text ++ q) = JavaOutline.past xs text ++ q := by
  induction xs generalizing text with
  | nil => rfl
  | cons x xs ih =>
      obtain ⟨after, htext, _, hafter⟩ := h.skipBlanks
      have hnext := h.skipBlanks_append_text q
      rw [htext, List.append_assoc] at hnext
      rw [JavaOutline.past, JavaOutline.past, hnext, htext, List.drop_left, List.drop_left]
      exact ih hafter

/-- What comes after lexemes is an end of the text. -/
theorem Laid.suffix {ls : List Lexeme} {text rest : List Char} (h : Laid ls text rest) :
    rest <:+ text := by
  induction ls generalizing text with
  | nil =>
      obtain ⟨run, _, rfl⟩ := h
      exact List.suffix_append run rest
  | cons l ls ih =>
      obtain ⟨run, after, _, rfl, _, hls⟩ := h
      exact (ih hls).trans ((List.suffix_append l.chars after).trans (List.suffix_append run _))

/-- Nothing comes between a character and what follows it. -/
theorem Laid.eq_of_suffix {text p q : List Char} {c : Char} (hc : isBlank c = false)
    (h : Laid [] text q) (hsuffix : text <:+ p ++ c :: q) : text = q := by
  obtain ⟨run, hrun, rfl⟩ := h
  obtain ⟨front, hfront⟩ := hsuffix
  have hends : front ++ run = p ++ [c] := by
    refine List.append_cancel_right (?_ : (front ++ run) ++ q = (p ++ [c]) ++ q)
    simpa using hfront
  have hlast := congrArg List.getLast? hends
  rw [List.getLast?_append, List.getLast?_concat] at hlast
  cases hrunLast : run.getLast? with
  | none => rw [List.getLast?_eq_none_iff.1 hrunLast, List.nil_append]
  | some d =>
      rw [hrunLast, Option.some_or, Option.some.injEq] at hlast
      have hblank := hrun d (List.mem_of_getLast? hrunLast)
      rw [hlast, hc] at hblank
      cases hblank

/-- A text goes on after its first lexemes. -/
theorem Laid.past {xs ys : List Lexeme} {text rest : List Char} (h : Laid (xs ++ ys) text rest) :
    Laid ys (JavaOutline.past xs text) rest := by
  induction xs generalizing text with
  | nil => exact h
  | cons x xs ih =>
      obtain ⟨after, htext, _, hafter⟩ := h.skipBlanks
      rw [JavaOutline.past, htext, List.drop_left]
      exact ih hafter

/-- The first lexemes of a text are laid out on their own. -/
theorem Laid.exact {xs ys : List Lexeme} {text rest : List Char} (h : Laid (xs ++ ys) text rest)
    (hxs : xs ≠ []) : Laid xs text (JavaOutline.past xs text) := by
  induction xs generalizing text with
  | nil => exact absurd rfl hxs
  | cons x xs ih =>
      obtain ⟨run, after, hrun, rfl, hfits, hafter⟩ := h
      obtain ⟨c, cs, hchars, hblank⟩ := hfits.exists_cons
      have hpast : JavaOutline.past (x :: xs) (run ++ (x.chars ++ after)) =
          JavaOutline.past xs after := by
        rw [JavaOutline.past, skipBlanks_blanks_append hrun, hchars, List.cons_append,
          skipBlanks_cons_of_not_isBlank hblank, ← List.cons_append, List.drop_left]
      rw [hpast]
      refine ⟨run, after, hrun, rfl, hfits, ?_⟩
      cases xs with
      | nil => exact .nil after
      | cons y xs => exact ih hafter (by simp)

/-- Where lexemes end does not depend on the layout of those before them. -/
theorem Laid.past_append {xs ys : List Lexeme} {text mid : List Char} (h : Laid xs text mid)
    (hys : ys ≠ []) : JavaOutline.past (xs ++ ys) text = JavaOutline.past ys mid := by
  induction xs generalizing text with
  | nil =>
      obtain ⟨run, hrun, rfl⟩ := h
      exact past_blanks_append hys hrun mid
  | cons x xs ih =>
      obtain ⟨after, htext, _, hafter⟩ := h.skipBlanks
      rw [List.cons_append, JavaOutline.past, htext, List.drop_left]
      exact ih hafter

/-- What comes after lexemes that end in a mark comes right after the mark. -/
theorem Laid.cons_past_suffix {ls : List Lexeme} {c : Char} {text rest : List Char}
    (h : Laid (ls ++ [.mark c]) text rest) :
    c :: JavaOutline.past (ls ++ [.mark c]) text <:+ text := by
  obtain ⟨mid, hls, hmark⟩ := h.append
  obtain ⟨next, hnext, _, _⟩ := hmark.skipBlanks
  have hpast : JavaOutline.past (ls ++ [.mark c]) text = next := by
    rw [hls.past_append (by simp), JavaOutline.past, hnext, List.drop_left]
    rfl
  have hblanks := List.dropWhile_suffix (l := mid) isBlank
  rw [← Text.skipBlanks, hnext] at hblanks
  rw [hpast]
  exact hblanks.trans hls.suffix

/-- Marks are not blank. -/
theorem Laid.not_isBlank_mark {ls : List Lexeme} {c : Char} {text rest : List Char}
    (h : Laid (ls ++ [.mark c]) text rest) : isBlank c = false := by
  obtain ⟨_, _, hmark⟩ := h.append
  obtain ⟨_, _, hfits, _⟩ := hmark.skipBlanks
  exact (not_isBlank_of_isMark hfits.1).1

/-- What is left after a mark, blanks passed over, comes right after it, also if
the text is the end of a longer one. -/
theorem Laid.eq_past {ls : List Lexeme} {c : Char} {text rest after whole : List Char}
    (h : Laid (ls ++ [.mark c]) text rest)
    (hafter : Laid [] after (JavaOutline.past (ls ++ [.mark c]) text))
    (htext : text <:+ whole) (hsuffix : after <:+ whole) :
    after = JavaOutline.past (ls ++ [.mark c]) text := by
  obtain ⟨front, rfl⟩ := h.cons_past_suffix.trans htext
  exact hafter.eq_of_suffix h.not_isBlank_mark hsuffix

/-- After lexemes that end in a mark comes what follows the mark. -/
theorem Laid.past_eq {ls : List Lexeme} {c : Char} {text rest : List Char}
    (h : Laid (ls ++ [.mark c]) (text ++ c :: rest) rest) :
    JavaOutline.past (ls ++ [.mark c]) (text ++ c :: rest) = rest := by
  have hexact := (show Laid ((ls ++ [.mark c]) ++ []) (text ++ c :: rest) rest by simpa using h)
  exact hexact.past.eq_of_suffix h.not_isBlank_mark (hexact.exact (by simp)).suffix

/-! ## One blank between lexemes -/

/-- Lexemes with one blank between any two. -/
def spaced : List Lexeme → List Char
  | [] => []
  | [l] => l.chars
  | l :: k :: ls => l.chars ++ ' ' :: spaced (k :: ls)

/-- Lexemes with one blank between any two are laid out before a blank. -/
theorem laid_spaced_append {ls : List Lexeme} (h : ∀ c, Lexeme.mark c ∈ ls → isMark c = true)
    {rest : List Char} (hrest : ∀ c ∈ rest.head?, isBlank c = true) :
    Laid ls (spaced ls ++ rest) rest := by
  have hfits : ∀ l ∈ ls, ∀ after : List Char, (∀ c ∈ after.head?, isBlank c = true) →
      l.Fits after := by
    intro l hl after hafter
    cases l with
    | word w =>
        intro c hc
        have hblank := hafter c hc
        exact ⟨by simp [isPlain, hblank], isQuote_eq_false_of_isBlank hblank⟩
    | literal l => trivial
    | mark c =>
        have hother : ∀ d, isBlank d = false → after.head? ≠ some d := by
          intro d hd hhead
          rw [hafter d hhead] at hd
          cases hd
        exact ⟨h c hl, fun _ => ⟨hother '/' (by decide), hother '*' (by decide)⟩⟩
  induction ls with
  | nil => exact .nil rest
  | cons l ls ih =>
      have hnext := ih (fun c hc => h c (List.mem_cons_of_mem l hc))
        fun k hk => hfits k (List.mem_cons_of_mem l hk)
      cases ls with
      | nil =>
          exact ⟨[], rest, by simp [AllBlank], by simp [spaced], hfits l List.mem_cons_self _ hrest,
            .nil rest⟩
      | cons k ls =>
          have hblank : ∀ c ∈ (' ' :: (spaced (k :: ls) ++ rest)).head?, isBlank c = true := by
            intro c hc
            cases hc
            decide
          exact ⟨[], _, by simp [AllBlank], by simp [spaced], hfits l List.mem_cons_self _ hblank,
            hnext.blank (by decide)⟩

/-- Lexemes with one blank between any two are laid out. -/
theorem laid_spaced {ls : List Lexeme} (h : ∀ c, Lexeme.mark c ∈ ls → isMark c = true) :
    Laid ls (spaced ls) [] := by
  have hlaid : Laid ls (spaced ls ++ []) [] := laid_spaced_append h (by simp)
  rwa [List.append_nil] at hlaid

/-- Whether a lexeme is formed as it has to be: words and literals are. -/
def Lexeme.isFormed : Lexeme → Bool
  | .mark c => isMark c
  | _ => true

theorem isMark_of_all_isFormed {ls : List Lexeme} (h : ls.all Lexeme.isFormed = true) (c : Char)
    (hc : .mark c ∈ ls) : isMark c = true :=
  List.all_eq_true.1 h (.mark c) hc

/-- Lexemes with one blank between any two and one after them are laid out in
front of any text. -/
theorem laid_spaced_blank {ls : List Lexeme} (h : ls.all Lexeme.isFormed = true)
    (rest : List Char) : Laid ls (spaced ls ++ ' ' :: rest) rest := by
  have hblank : ∀ c ∈ (' ' :: rest).head?, isBlank c = true := by
    rintro c ⟨⟩
    decide
  have hspaced := laid_spaced_append (isMark_of_all_isFormed h) hblank
  simpa using hspaced.trans ((Laid.nil rest).blank (c := ' ') (by decide))

end JavaOutline
