import JavaOutline.Proofs.Layout.Passing
import JavaOutline.Proofs.Lexical.Steps

/-!
# JavaOutline.Proofs.Layout.Tokens

Reading laid out lexemes.  A statement whose last token may still be open
*stands for* the statement with that token ended (`Stands`), and `Takes k
ls k'` says that reading the lexemes `ls` leads from `k` to `k'`, whatever
blanks they are laid out with.

* `takes_word`, `takes_openParenthesis`, `takes_closeParenthesis`
  — what single lexemes do;
* `Takes.append` — readings one after the other;
* `scan_semicolon`, `scan_block`, `scan_closeBrace`, `scan_label` — how a
  statement ends.
-/

namespace JavaOutline

open Text

namespace OpenStatement

/-- The statement with one more token. -/
def take (s : OpenStatement) (token : String) : OpenStatement :=
  { s with tokens := s.tokens ++ [token] }

/-- The statement with several more tokens. -/
def takeAll (s : OpenStatement) (tokens : List String) : OpenStatement :=
  { s with tokens := s.tokens ++ tokens }

@[simp] theorem tokens_start : start.tokens = [] := rfl

@[simp] theorem tokens_takeAll (s : OpenStatement) (tokens : List String) :
    (s.takeAll tokens).tokens = s.tokens ++ tokens := rfl

/-- The statement with more text in the token being read. -/
def extend (s : OpenStatement) (text : String) : OpenStatement :=
  { s with current := s.current ++ text }

/-- The statement with a parenthesis closed. -/
def closed (s : OpenStatement) : OpenStatement :=
  { s with tokens := s.tokens ++ [")"], parentheses := s.parentheses - 1 }

@[simp] theorem extend_extend (s : OpenStatement) (a b : String) :
    (s.extend a).extend b = s.extend (a ++ b) := by
  simp [extend, String.append_assoc]

theorem extend_ne_empty {s : OpenStatement} (hcurrent : s.current ≠ "") (a : String) : (s.extend a).current ≠ "" := by
  intro h
  simp only [extend, String.append_eq_empty_iff] at h
  exact hcurrent h.1

theorem push_eq_extend (s : OpenStatement) (c : Char) : s.push c = s.extend (String.singleton c) := by
  rw [push, extend, String.push_eq_append]

theorem atAnnotation_extend {s : OpenStatement} (hcurrent : s.current ≠ "") (a : String) :
    atAnnotation (s.extend a) = s.atAnnotation := by
  have hne : s.current.toList ≠ [] := fun h => hcurrent (String.toList_eq_nil_iff.1 h)
  obtain ⟨c, cs, hcs⟩ := List.exists_cons_of_ne_nil hne
  simp [ atAnnotation, extend, hcs]

/-! ## Standing for a statement -/

/-- `s` stands for `k` before a text: `k` is `s` with its token ended, and
the text does not go on with the token. -/
structure Stands (s k : OpenStatement) (text : List Char) : Prop where
  ended : s.endToken = k
  plainly : s.atAnnotation = false
  apart : s.current = "" ∨ Apart text

namespace Stands

variable {s k : OpenStatement} {text : List Char}

theorem of_current_eq_empty (h : s.current = "") (text : List Char) : Stands s s text :=
  ⟨endToken_of_current_eq_empty h, by simp [ atAnnotation, h], .inl h⟩

/-- A token that does not go on stands for itself. -/
theorem of_apart (hat : s.atAnnotation = false)
    (hapart : Apart text) : Stands s s.endToken text :=
  ⟨rfl, hat, .inr hapart⟩

theorem current_eq (h : Stands s k text) : k.current = "" := by
  rw [← h.ended, current_endToken]

theorem parentheses_eq (h : Stands s k text) : s.parentheses = k.parentheses := by
  rw [← h.ended, parentheses_endToken]

theorem finish_eq (h : Stands s k text) (ending : Ending (List Char)) :
    s.finish ending = ⟨k.tokens, ending⟩ := by
  rw [finish, h.ended]

end Stands

/-! ## Words -/

/-- A plain character goes on with the token. -/
theorem read_plain {c : Char} (hc : isPlain c = true) (s : OpenStatement) (rest : List Char) :
    s.read (c :: rest) = (s.push c).read rest := by
  obtain ⟨hblank, hquote, hslash, hinterrupts, hends⟩ := isPlain_iff.1 hc
  have hopen : c ≠ '(' := by rintro rfl; exact absurd hinterrupts (by decide)
  have hclose : c ≠ ')' := by rintro rfl; exact absurd hinterrupts (by decide)
  have hangle : c ≠ '<' := by rintro rfl; exact absurd hinterrupts (by decide)
  rw [read_cons, step, if_neg (by simp [hblank, hslash]), if_neg (by simp [hinterrupts]),
    if_neg (by simp [hquote]), if_neg hopen, if_neg hclose, if_neg (by simp [hends]),
    if_neg hangle]

theorem read_plain_append {cs : List Char} (hcs : ∀ c ∈ cs, isPlain c = true) (s : OpenStatement)
    (rest : List Char) : s.read (cs ++ rest) = (s.extend (String.ofList cs)).read rest := by
  induction cs generalizing s with
  | nil => simp [extend]
  | cons c cs ih =>
      have htext : s.current.push c ++ String.ofList cs = s.current ++ String.ofList (c :: cs) := by
        apply String.toList_inj.1
        simp
      rw [List.cons_append, read_plain (hcs c List.mem_cons_self),
        ih fun d hd => hcs d (List.mem_cons_of_mem c hd), extend, extend, push, htext]

/-- A word right before the text goes on with the token. -/
theorem read_word_append (w : Word) (s : OpenStatement) (rest : List Char) :
    s.read (w.text.toList ++ rest) = (s.extend w.text).read rest := by
  rw [read_plain_append (fun c hc => w.isPlain_of_mem hc), String.ofList_toList]

/-- A boundary at a character that joins nothing ends the token. -/
theorem boundary_of_not_mayJoin {s : OpenStatement} {c : Char} (hjoin : mayJoin c = false)
    (hat : s.atAnnotation = false) (rest : List Char) : s.boundary c rest = (s.endToken, c :: rest) := by
  rw [boundary, if_neg (by simp [hjoin]), if_neg (by simp [hat])]

theorem not_mayJoin_of_isPlain {c : Char} (h : isPlain c = true) : mayJoin c = false := by
  cases hjoin : mayJoin c with
  | false => rfl
  | true =>
      have hall : ∀ d ∈ ['.', ',', '<', '>', '[', ']', '?'], isPlain d = false := by decide
      rw [mayJoin, List.contains_iff_mem] at hjoin
      rw [hall c hjoin] at h
      cases h

/-- A word that is laid out begins a token of its own. -/
theorem Stands.read_word {s k : OpenStatement} {w : Word} {ls : List Lexeme}
    {text rest : List Char} (h : Stands s k text) (hlaid : Laid (.word w :: ls) text rest) :
    ∃ after, (Lexeme.word w).Fits after ∧ Laid ls after rest ∧
      s.read text = (k.extend w.text).read after := by
  obtain ⟨run, after, hrun, rfl, hfits, hls⟩ := hlaid
  refine ⟨after, hfits, hls, ?_⟩
  obtain ⟨c, cs, hw, hplain, _⟩ := w.exists_cons
  obtain ⟨hblank, _, hslash, _⟩ := isPlain_iff.1 hplain
  cases run with
  | nil =>
      have hcurrent : s.current = "" := by
        rcases h.apart with hempty | hapart
        · exact hempty
        · have hnot := hapart c (by simp [Lexeme.chars, hw])
          rw [hnot.1] at hplain
          cases hplain
      have hk : k = s := by rw [← h.ended, endToken_of_current_eq_empty hcurrent]
      rw [hk, List.nil_append, Lexeme.chars, read_word_append]
  | cons b run =>
      have htext : b :: run ++ ((Lexeme.word w).chars ++ after) =
          b :: run ++ c :: (cs ++ after) := by simp [Lexeme.chars, hw]
      have hword : c :: (cs ++ after) = w.text.toList ++ after := by simp [hw]
      rw [htext, read_blanks_append s hrun (by simp) hblank hslash,
        boundary_of_not_mayJoin (not_mayJoin_of_isPlain hplain) h.plainly]
      dsimp only
      rw [h.ended, hword, read_word_append]

/-! ## Marks at which a token ends -/

/-- At a mark that interrupts a name and joins nothing the token has
ended. -/
theorem Stands.read_stop {s k : OpenStatement} {c : Char} {ls : List Lexeme}
    {text rest : List Char} (h : Stands s k text) (hlaid : Laid (.mark c :: ls) text rest)
    (hc : c ∈ ['(', ')', '=', '\x7b']) : ∃ after, Laid ls after rest ∧
      s.read text = k.read (c :: after) := by
  obtain ⟨run, after, hrun, rfl, hfits, hls⟩ := hlaid
  refine ⟨after, hls, ?_⟩
  have hkinds : ∀ d ∈ ['(', ')', '=', '\x7b'], mayJoin d = false ∧ interruptsName d = true ∧
      isBlank d = false ∧ d ≠ '/' := by decide
  obtain ⟨hjoin, hinterrupts, hblank, hslash⟩ := hkinds c hc
  have hboundary := boundary_of_not_mayJoin hjoin h.plainly after
  rw [Lexeme.chars, List.singleton_append]
  by_cases hrunEmpty : run = []
  · subst hrunEmpty
    rw [List.nil_append]
    by_cases hcurrent : s.current = ""
    · rw [← h.ended, endToken_of_current_eq_empty hcurrent]
    · rw [read_interrupting hcurrent hinterrupts, hboundary, h.ended]
  · rw [read_blanks_append s hrun hrunEmpty hblank hslash, hboundary, h.ended]

/-- At the end of a statement the token may have ended or not. -/
theorem Stands.read_ending {s k : OpenStatement} {c : Char} {ls : List Lexeme}
    {text rest : List Char} (h : Stands s k text) (hlaid : Laid (.mark c :: ls) text rest)
    (hc : c ∈ [';', '\x7d', ':']) : ∃ t after, (t = s ∨ t = k) ∧ Stands t k (c :: after) ∧
      Laid ls after rest ∧ s.read text = t.read (c :: after) := by
  have hcurrent := h.current_eq
  obtain ⟨run, after, hrun, rfl, hfits, hls⟩ := hlaid
  have hkinds : ∀ d ∈ [';', '\x7d', ':'], mayJoin d = false ∧ isBlank d = false ∧ d ≠ '/' := by
    decide
  obtain ⟨hjoin, hblank, hslash⟩ := hkinds c hc
  by_cases hrunEmpty : run = []
  · subst hrunEmpty
    exact ⟨s, after, .inl rfl, h, hls, rfl⟩
  · refine ⟨k, after, .inr rfl, .of_current_eq_empty hcurrent _, hls, ?_⟩
    rw [Lexeme.chars, List.singleton_append, read_blanks_append s hrun hrunEmpty hblank hslash,
      boundary_of_not_mayJoin hjoin h.plainly, h.ended]

/-! ## Ends of statements -/

section

variable {s k : OpenStatement} {ls : List Lexeme} {text rest : List Char}

/-- A colon that ends a statement does so before the token has ended. -/
theorem Stands.endsInLabel (h : Stands s k text) (hlabel : k.endsInLabel = true) :
    s.endsInLabel = true := by
  by_cases hcurrent : s.current = ""
  · rw [← h.ended, endToken_of_current_eq_empty hcurrent] at hlabel
    exact hlabel
  · have hk := h.ended
    rw [endToken_of_current_ne_empty hcurrent h.plainly] at hk
    subst hk
    cases htokens : s.tokens with
    | nil => simp [OpenStatement.endsInLabel, htokens, hcurrent]
    | cons token tokens =>
        simp only [OpenStatement.endsInLabel, htokens, List.cons_append, List.head?_cons,
          List.length_cons, List.length_append, List.length_nil] at hlabel ⊢
        simp at hlabel ⊢
        exact .inl (.inl hlabel)

theorem Stands.read_semicolon (h : Stands s k text) (hparentheses : k.parentheses = 0)
    (hlaid : Laid (.mark ';' :: ls) text rest) : ∃ after, Laid ls after rest ∧
      s.read text = some (⟨k.tokens, .semicolon⟩, after) := by
  obtain ⟨t, after, _, ht, hls, hread⟩ := h.read_ending hlaid (by decide)
  refine ⟨after, hls, ?_⟩
  have hclosed : ¬ 0 < t.parentheses := by rw [ht.parentheses_eq, hparentheses]; omega
  rw [hread, read_cons, step_mayEnd (by decide) (.inr (by decide)), readEnding,
    if_neg (by simp), if_neg hclosed]
  simp [ht.finish_eq]

theorem Stands.read_closeBrace (h : Stands s k text) (hparentheses : k.parentheses = 0)
    (hlaid : Laid (.mark '\x7d' :: ls) text rest) : ∃ after, Laid ls after rest ∧
      s.read text = some (⟨k.tokens, .closeBrace⟩, after) := by
  obtain ⟨t, after, _, ht, hls, hread⟩ := h.read_ending hlaid (by decide)
  refine ⟨after, hls, ?_⟩
  have hclosed : ¬ 0 < t.parentheses := by rw [ht.parentheses_eq, hparentheses]; omega
  rw [hread, read_cons, step_mayEnd (by decide) (.inr (by decide)), readEnding,
    if_neg (by simp), if_neg hclosed]
  simp [ht.finish_eq]

theorem Stands.read_label (h : Stands s k text) (hparentheses : k.parentheses = 0)
    (hlabel : k.endsInLabel = true) (hlaid : Laid (.mark ':' :: ls) text rest) :
    ∃ after, Laid ls after rest ∧ s.read text = some (⟨k.tokens, .label⟩, after) := by
  obtain ⟨t, after, _, ht, hls, hread⟩ := h.read_ending hlaid (by decide)
  refine ⟨after, hls, ?_⟩
  have hclosed : ¬ 0 < t.parentheses := by rw [ht.parentheses_eq, hparentheses]; omega
  rw [hread, read_cons, step_mayEnd (by decide) (.inr (by decide)), readEnding,
    if_neg (by simp [ht.endsInLabel hlabel]), if_neg hclosed]
  simp [ht.finish_eq]

theorem Stands.read_block (h : Stands s k text) (hparentheses : k.parentheses = 0)
    (hlone : k.isLoneName = false) (hlaid : Laid (.mark '\x7b' :: ls) text rest) :
    ∃ body, Laid ls body rest ∧ s.read text =
      some (⟨k.tokens, .block body (afterBracket '\x7b' '\x7d' 0 body)⟩,
        afterBracket '\x7b' '\x7d' 0 body) := by
  obtain ⟨body, hls, hread⟩ := h.read_stop hlaid (by decide)
  refine ⟨body, hls, ?_⟩
  have hclosed : ¬ 0 < k.parentheses := by rw [hparentheses]; omega
  have hfinish : ∀ ending, k.finish ending = ⟨k.tokens, ending⟩ :=
    (Stands.of_current_eq_empty h.current_eq body).finish_eq
  rw [hread, read_cons, step_mayEnd (by decide) (.inl h.current_eq), readEnding,
    if_neg (by simp), if_neg hclosed]
  simp [hlone, hfinish]

/-- After `=` the statement goes on where the initializer ends. -/
theorem Stands.read_equals (h : Stands s k text) (hparentheses : k.parentheses = 0)
    (hlaid : Laid (.mark '=' :: ls) text rest) : ∃ after, Laid ls after rest ∧ s.read text =
      match initializerEnd .none after with
      | .comma text => k.reopen.read text
      | .semicolon text => some (⟨k.tokens, .semicolon⟩, text)
      | .endOfText => some (⟨k.tokens, .endOfText⟩, []) := by
  obtain ⟨after, hls, hread⟩ := h.read_stop hlaid (by decide)
  refine ⟨after, hls, ?_⟩
  have hclosed : ¬ 0 < k.parentheses := by rw [hparentheses]; omega
  have hfinish : ∀ ending, k.finish ending = ⟨k.tokens, ending⟩ :=
    (Stands.of_current_eq_empty h.current_eq after).finish_eq
  rw [hread, read_cons, step_mayEnd (by decide) (.inl h.current_eq), readEnding,
    if_neg (by simp), if_neg hclosed]
  cases initializerEnd .none after <;> simp [hfinish]

end

end OpenStatement

/-! ## Readings of several lexemes -/

/-- The lexemes that do not join the token before them. -/
def Lexeme.Follows : Lexeme → Prop
  | .word _ => True
  | .literal _ => False
  | .mark c => c ∈ ['(', ')', '=', '\x7b', '\x7d', ';', ':']

theorem Lexeme.Follows.head?_ne {l : Lexeme} (h : l.Follows) :
    l.chars.head? ≠ some '[' ∧ l.chars.head? ≠ some ',' := by
  cases l with
  | word w =>
      obtain ⟨c, cs, hw, hplain, _⟩ := w.exists_cons
      simp only [Lexeme.chars, hw, List.head?_cons, ne_eq, Option.some.injEq]
      constructor <;> (rintro rfl; exact absurd hplain (by decide))
  | literal q => cases h
  | mark c =>
      simp only [Lexeme.Follows] at h
      simp only [Lexeme.chars, List.head?_cons, ne_eq, Option.some.injEq]
      constructor <;> (rintro rfl; exact absurd h (by decide))

open OpenStatement

/-- Reading the lexemes `ls` leads from `k` to `k'`, if a lexeme follows
that `F` holds of. -/
def Takes (F : Lexeme → Prop) (k : OpenStatement) (ls : List Lexeme) (k' : OpenStatement) : Prop :=
  ∀ (s : OpenStatement) (l : Lexeme) (more : List Lexeme) (text rest : List Char),
    Stands s k text → F l → Laid (ls ++ l :: more) text rest →
      ∃ t after, Stands t k' after ∧ Laid (l :: more) after rest ∧ s.read text = t.read after

namespace Takes

variable {F G : Lexeme → Prop} {k k' k'' : OpenStatement} {xs ys : List Lexeme}

theorem nil : Takes F k [] k := fun s _ _ text _ hs _ hlaid => ⟨s, text, hs, hlaid, rfl⟩

/-- Lexemes are read part by part; what the first part is followed by is
what the second begins with. -/
theorem append (hxs : Takes F k xs k') (hys : Takes G k' ys k'') (hnil : ys = [] → ∀ l, G l → F l)
    (hcons : ∀ y ∈ ys.head?, F y) : Takes G k (xs ++ ys) k'' := by
  intro s l more text rest hs hl hlaid
  rw [List.append_assoc] at hlaid
  cases ys with
  | nil =>
      obtain ⟨t, mid, ht, hmid, hread⟩ := hxs s l more text rest hs (hnil rfl l hl) hlaid
      obtain ⟨u, after, hu, hafter, hread'⟩ := hys t l more mid rest ht hl hmid
      exact ⟨u, after, hu, hafter, hread.trans hread'⟩
  | cons y ys =>
      obtain ⟨t, mid, ht, hmid, hread⟩ :=
        hxs s y (ys ++ l :: more) text rest hs (hcons y (by simp)) hlaid
      obtain ⟨u, after, hu, hafter, hread'⟩ := hys t l more mid rest ht hl hmid
      exact ⟨u, after, hu, hafter, hread.trans hread'⟩

end Takes

theorem Word.notAt_extend (w : Word) {k : OpenStatement} (hk : k.current = "") :
    atAnnotation (k.extend w.text) = false := by
  obtain ⟨c, cs, hw, _, hat⟩ := w.exists_cons
  simp [ atAnnotation, extend, hk, hw, hat]

/-- A word stands for a token. -/
theorem Word.stands_extend (w : Word) {k : OpenStatement} (hk : k.current = "") {text : List Char}
    (hfits : (Lexeme.word w).Fits text) : Stands (k.extend w.text) (k.take w.text) text := by
  have hcurrent : (k.extend w.text).current = w.text := by simp [extend, hk]
  refine ⟨?_, w.notAt_extend hk, .inr hfits⟩
  rw [endToken_of_current_ne_empty (by rw [hcurrent]; exact w.ne_empty) (w.notAt_extend hk),
    hcurrent]
  simp [take, extend, hk]

theorem takes_word (k : OpenStatement) (w : Word) :
    Takes Lexeme.Follows k [.word w] (k.take w.text) := by
  intro s l more text rest hs _ hlaid
  obtain ⟨after, hfits, hls, hread⟩ := hs.read_word hlaid
  exact ⟨_, after, w.stands_extend hs.current_eq hfits, hls, hread⟩

theorem takes_words (k : OpenStatement) (ws : List Word) :
    Takes Lexeme.Follows k (ws.map .word) (k.takeAll (ws.map Word.text)) := by
  induction ws generalizing k with
  | nil => simpa [takeAll] using Takes.nil
  | cons w ws ih =>
      have htokens : k.takeAll ((w :: ws).map Word.text) =
          (k.take w.text).takeAll (ws.map Word.text) := by
        simp [take, takeAll]
      rw [htokens]
      apply (takes_word k w).append (ih (k.take w.text)) (fun _ _ hl => hl)
      intro y hy
      cases ws with
      | nil => cases hy
      | cons v ws => cases hy; trivial

theorem takes_openParenthesis (F : Lexeme → Prop) (k : OpenStatement) :
    Takes F k [.mark '('] k.openParenthesis := by
  intro s l more text rest hs _ hlaid
  obtain ⟨after, hls, hread⟩ := hs.read_stop hlaid (by decide)
  have hcurrent : k.openParenthesis.current = "" := hs.current_eq
  exact ⟨_, after, .of_current_eq_empty hcurrent after, hls,
    by rw [hread, read_openParenthesis hs.current_eq]⟩

/-- A closed parenthesis stays before a body, where the first token is
inert, and where a `(` comes after two tokens. -/
theorem OpenStatement.closeParenthesis_eq_closed {k : OpenStatement} {text : List Char}
    (h : opensBody text = true ∨ k.beginsInert = true ∨ "(" ∈ k.tokens.drop 2) :
    k.closeParenthesis text = k.closed := by
  have hkept : (opensBody text || k.closed.beginsInert ||
      (k.closed.tokens.drop 2).contains "(") = true := by
    rcases h with hbody | hinert | hopen
    · simp [hbody]
    · cases htokens : k.tokens with
      | nil => simp [beginsInert, htokens] at hinert
      | cons token tokens =>
          have hfirst : k.closed.beginsInert = true := by
            simp [beginsInert, htokens] at hinert
            simp [beginsInert, closed, htokens, hinert]
          simp [hfirst]
    · have hin : "(" ∈ k.closed.tokens.drop 2 := by
        have hle : 2 ≤ k.tokens.length := by
          by_cases hle : 2 ≤ k.tokens.length
          · exact hle
          · rw [List.drop_eq_nil_of_le (by omega)] at hopen
            cases hopen
        rw [closed, List.drop_append_of_le_length hle]
        exact List.mem_append_left _ hopen
      simp [hin]
  rw [closeParenthesis]
  exact if_pos hkept

theorem takes_closeParenthesis {F : Lexeme → Prop} {k : OpenStatement}
    (h : k.beginsInert = true ∨ "(" ∈ k.tokens.drop 2 ∨ ∀ l, F l → l = .mark '\x7b') :
    Takes F k [.mark ')'] k.closed := by
  intro s l more text rest hs hl hlaid
  obtain ⟨after, hls, hread⟩ := hs.read_stop hlaid (by decide)
  have hcurrent : k.closed.current = "" := hs.current_eq
  have hclose : k.closeParenthesis (skipBlanks after) = k.closed := by
    apply closeParenthesis_eq_closed
    rcases h with hinert | hopen | hbody
    · exact .inr (.inl hinert)
    · exact .inr (.inr hopen)
    · have hhead : (skipBlanks after).head? = some '\x7b' := by
        rw [hls.head?_skipBlanks, hbody l hl]
        rfl
      exact .inl (by simp [opensBody, hhead])
  refine ⟨k.closed, skipBlanks after, .of_current_eq_empty hcurrent _, hls.of_skipBlanks, ?_⟩
  rw [hread, read_closeParenthesis hs.current_eq, hclose]

/-! ## Scanning a statement -/

/-- A statement is read from its first lexeme on. -/
theorem scan_eq_read_skipBlanks {l : Lexeme} {ls : List Lexeme} {text rest : List Char}
    (hslash : l ≠ .mark '/') (hlaid : Laid (l :: ls) text rest) :
    scan text = start.read (skipBlanks text) := by
  obtain ⟨run, after, hrun, rfl, hfits, hls⟩ := hlaid
  have hfirst : ∃ c cs, l.chars = c :: cs ∧ isBlank c = false ∧ c ≠ '/' := by
    cases l with
    | word w =>
        obtain ⟨c, cs, hw, hplain, _⟩ := w.exists_cons
        obtain ⟨hblank, _, hne, _⟩ := isPlain_iff.1 hplain
        exact ⟨c, cs, hw, hblank, hne⟩
    | literal q =>
        exact ⟨_, _, rfl, isBlank_eq_false_of_isQuote q.isQuote, ne_of_isQuote q.isQuote (by decide)⟩
    | mark c =>
        exact ⟨c, [], rfl, (not_isBlank_of_isMark hfits.1).1, fun hc => hslash (by rw [hc])⟩
  obtain ⟨c, cs, hl, hblank, hne⟩ := hfirst
  rw [scan, skipGaps_blanks_append hrun, skipBlanks_blanks_append hrun, hl, List.cons_append,
    skipGaps_cons_of_code hblank hne, skipBlanks_cons_of_not_isBlank hblank]

theorem scan_eq_read {l : Lexeme} {ls : List Lexeme} {text rest : List Char}
    (hslash : l ≠ .mark '/') (hlaid : Laid (l :: ls) text rest) :
    ∃ text', Laid (l :: ls) text' rest ∧ scan text = start.read text' :=
  ⟨skipBlanks text, hlaid.of_skipBlanks, scan_eq_read_skipBlanks hslash hlaid⟩

theorem stands_start (text : List Char) : Stands start start text :=
  .of_current_eq_empty rfl text

/-- The statement that some lexemes lead to is what scanning goes on with. -/
theorem Takes.scan_eq {F : Lexeme → Prop} {k : OpenStatement} {ls more : List Lexeme} {l : Lexeme}
    (h : Takes F start ls k) (hl : F l) (hslash : ls.head? ≠ some (.mark '/'))
    (hlast : l ≠ .mark '/') {text rest : List Char} (hlaid : Laid (ls ++ l :: more) text rest) :
    ∃ t after, Stands t k after ∧ Laid (l :: more) after rest ∧ scan text = t.read after := by
  obtain ⟨first, others, hsplit, hfirst⟩ : ∃ first others, ls ++ l :: more = first :: others ∧
      first ≠ .mark '/' := by
    cases ls with
    | nil => exact ⟨l, more, rfl, hlast⟩
    | cons x ls => exact ⟨x, ls ++ l :: more, rfl, by simpa using hslash⟩
  rw [hsplit] at hlaid
  obtain ⟨text', hlaid', hscan⟩ := scan_eq_read hfirst hlaid
  rw [← hsplit] at hlaid'
  obtain ⟨t, after, ht, hafter, hread⟩ := h start l more text' rest (stands_start text') hl hlaid'
  exact ⟨t, after, ht, hafter, hscan.trans hread⟩

section

variable {F : Lexeme → Prop} {k : OpenStatement} {ls more : List Lexeme} {text rest : List Char}

theorem Takes.scan_semicolon (h : Takes F start ls k) (hl : F (.mark ';'))
    (hslash : ls.head? ≠ some (.mark '/')) (hparentheses : k.parentheses = 0)
    (hlaid : Laid (ls ++ .mark ';' :: more) text rest) : ∃ after, Laid more after rest ∧
      scan text = some (⟨k.tokens, .semicolon⟩, after) := by
  obtain ⟨t, mid, ht, hmid, hscan⟩ := h.scan_eq hl hslash (by simp) hlaid
  obtain ⟨after, hafter, hend⟩ := ht.read_semicolon hparentheses hmid
  exact ⟨after, hafter, hscan.trans hend⟩

theorem Takes.scan_closeBrace (h : Takes F start ls k) (hl : F (.mark '\x7d'))
    (hslash : ls.head? ≠ some (.mark '/')) (hparentheses : k.parentheses = 0)
    (hlaid : Laid (ls ++ .mark '\x7d' :: more) text rest) : ∃ after, Laid more after rest ∧
      scan text = some (⟨k.tokens, .closeBrace⟩, after) := by
  obtain ⟨t, mid, ht, hmid, hscan⟩ := h.scan_eq hl hslash (by simp) hlaid
  obtain ⟨after, hafter, hend⟩ := ht.read_closeBrace hparentheses hmid
  exact ⟨after, hafter, hscan.trans hend⟩

theorem Takes.scan_block (h : Takes F start ls k) (hl : F (.mark '\x7b'))
    (hslash : ls.head? ≠ some (.mark '/')) (hparentheses : k.parentheses = 0)
    (hlone : k.isLoneName = false) (hlaid : Laid (ls ++ .mark '\x7b' :: more) text rest) :
    ∃ body, Laid more body rest ∧
      scan text = some (⟨k.tokens, .block body (afterBracket '\x7b' '\x7d' 0 body)⟩,
        afterBracket '\x7b' '\x7d' 0 body) := by
  obtain ⟨t, mid, ht, hmid, hscan⟩ := h.scan_eq hl hslash (by simp) hlaid
  obtain ⟨body, hbody, hend⟩ := ht.read_block hparentheses hlone hmid
  exact ⟨body, hbody, hscan.trans hend⟩

theorem Takes.scan_label (h : Takes F start ls k) (hl : F (.mark ':'))
    (hslash : ls.head? ≠ some (.mark '/')) (hparentheses : k.parentheses = 0)
    (hlabel : k.endsInLabel = true) (hlaid : Laid (ls ++ .mark ':' :: more) text rest) :
    ∃ after, Laid more after rest ∧ scan text = some (⟨k.tokens, .label⟩, after) := by
  obtain ⟨t, mid, ht, hmid, hscan⟩ := h.scan_eq hl hslash (by simp) hlaid
  obtain ⟨after, hafter, hend⟩ := ht.read_label hparentheses hlabel hmid
  exact ⟨after, hafter, hscan.trans hend⟩

end

end JavaOutline
