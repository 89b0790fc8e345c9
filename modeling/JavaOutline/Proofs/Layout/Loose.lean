import JavaOutline.Proofs.Layout.Tokens

/-!
# JavaOutline.Proofs.Layout.Loose

Reading laid out lexemes where it does not matter which tokens they make,
such as in conditions and arguments.  The tokens only grow (`Grows`), and a
parenthesis is closed where it should be, as long as closing one does not
drop tokens (`Firm`).

* **atoms** — `Loose.read_word`, `Loose.read_literal`, `Loose.read_mark` and
  so on: one lexeme;
* **walkers** — `Nests.readInside`: lexemes with nested brackets, inside a
  parenthesis.
-/

namespace JavaOutline

open Text

/-- Whether a lexeme begins another token, or goes on with one. -/
def Lexeme.counts : Lexeme → Bool
  | .word _ => true
  | .literal _ => false
  | .mark c => ['<', '>', '.', '?', '[', ']'].contains c

namespace OpenStatement

/-! ## Statements that grow -/

/-- The number of tokens, with the one that is being read. -/
def size (s : OpenStatement) : Nat := s.tokens.length + if s.current = "" then 0 else 1

/-- Tokens are only added. -/
structure Grows (s t : OpenStatement) : Prop where
  tokens : s.tokens <+: t.tokens
  size : s.size ≤ t.size

namespace Grows

variable {s t u : OpenStatement}

theorem refl (s : OpenStatement) : Grows s s := ⟨List.prefix_refl _, Nat.le_refl _⟩

theorem trans (hst : Grows s t) (htu : Grows t u) : Grows s u :=
  ⟨hst.tokens.trans htu.tokens, Nat.le_trans hst.size htu.size⟩

theorem endToken (hat : s.atAnnotation = false) : Grows s s.endToken := by
  by_cases hcurrent : s.current = ""
  · rw [endToken_of_current_eq_empty hcurrent]
    exact refl s
  · rw [endToken_of_current_ne_empty hcurrent hat]
    exact ⟨List.prefix_append _ _, by simp [OpenStatement.size, hcurrent]⟩

/-- More text in the token being read is no loss. -/
theorem of_tokens_eq (htokens : t.tokens = s.tokens) (hcurrent : t.current ≠ "") : Grows s t := by
  refine ⟨htokens ▸ List.prefix_refl _, ?_⟩
  simp only [OpenStatement.size, htokens, hcurrent, if_false]
  split <;> omega

/-- A token that is being read after others is at least the second. -/
theorem two_le_size (h : Grows s t) (htokens : s.tokens ≠ []) (hcurrent : t.current ≠ "") :
    2 ≤ t.size := by
  have hsome := List.length_pos_iff.2 htokens
  have hlength := h.tokens.length_le
  rw [OpenStatement.size, if_neg hcurrent]
  omega

end Grows

/-- A statement before a text of which only so much is known: no annotation
is being read, and outside parentheses the token is not `default`, nor does
it go on plainly. -/
structure Loose (s : OpenStatement) (text : List Char) : Prop where
  plainly : s.atAnnotation = false
  apart : s.parentheses = 0 → s.current ≠ "default" ∧
    (s.current = "" ∨ (∃ c ∈ s.current.toList, isPlain c = false) ∨ Apart text)

/-- Tokens of which closing a parenthesis drops none: the first is inert, or
a parenthesis has been opened after two. -/
def Firm (tokens : List String) : Prop :=
  tokens.head?.any isInert = true ∨ "(" ∈ tokens.drop 2

/-- Tokens stay firm. -/
theorem Firm.mono {tokens more : List String} (h : Firm tokens) (hextends : tokens <+: more) :
    Firm more := by
  obtain ⟨others, rfl⟩ := hextends
  rcases h with hinert | hopen
  · left
    cases tokens with
    | nil => cases hinert
    | cons token tokens => exact hinert
  · right
    have hlength : 2 ≤ tokens.length := by
      by_cases hlength : 2 ≤ tokens.length
      · exact hlength
      · rw [List.drop_eq_nil_of_le (by omega)] at hopen
        cases hopen
    rw [List.drop_append_of_le_length hlength]
    exact List.mem_append_left others hopen

/-- A parenthesis opened after two tokens makes them firm. -/
theorem Firm.of_two_le {tokens : List String} (h : 2 ≤ tokens.length) : Firm (tokens ++ ["("]) := by
  right
  rw [List.drop_append_of_le_length h]
  simp

namespace Loose

variable {s t : OpenStatement} {ls : List Lexeme} {l : Lexeme} {text rest : List Char}

theorem of_current_eq_empty (h : s.current = "") (text : List Char) : Loose s text :=
  ⟨by simp [ atAnnotation, h], fun _ => ⟨by simp [h], .inl h⟩⟩

theorem endToken (s : OpenStatement) (text : List Char) : Loose s.endToken text :=
  .of_current_eq_empty (current_endToken s) text

/-- A character that is not plain cannot be in `default`. -/
theorem of_mem {c : Char} (hat : s.atAnnotation = false) (hc : c ∈ s.current.toList)
    (hplain : isPlain c = false) (text : List Char) : Loose s text := by
  have hdefault : ∀ d ∈ "default".toList, isPlain d = true := by decide
  refine ⟨hat, fun _ => ⟨fun heq => ?_, .inr (.inl ⟨c, hc, hplain⟩)⟩⟩
  rw [heq] at hc
  rw [hdefault c hc] at hplain
  cases hplain

/-- A statement with its last token ended stands for itself at a mark. -/
theorem stands {c : Char} (h : Loose s text) (hlaid : Laid (.mark c :: ls) text rest)
    (hc : isPlain c = false ∧ isQuote c = false) : Stands s s.endToken text := by
  refine ⟨rfl, h.plainly, .inr fun d hd => ?_⟩
  obtain ⟨run, after, hrun, rfl, _, _⟩ := hlaid
  cases run with
  | nil =>
      cases hd
      exact hc
  | cons b run =>
      cases hd
      have hblank := hrun d List.mem_cons_self
      exact ⟨by simp [isPlain, hblank], isQuote_eq_false_of_isBlank hblank⟩

/-! ## Atoms -/

/-- Before a character that joins nothing the token ends, if blanks come
first. -/
theorem read_lead {run : List Char} {c : Char} (hrun : AllBlank run)
    (hat : s.atAnnotation = false) (hjoin : mayJoin c = false) (hblank : isBlank c = false)
    (hslash : c ≠ '/') (tail : List Char) :
    (run = [] ∨ s.read (run ++ c :: tail) = s.endToken.read (c :: tail)) := by
  by_cases hempty : run = []
  · exact .inl hempty
  · rw [read_blanks_append s hrun hempty hblank hslash, boundary_of_not_mayJoin hjoin hat]
    exact .inr rfl

/-- A word goes on with the token or begins one. -/
theorem read_word {w : Word} (h : Loose s text) (hdefault : s.parentheses = 0 → w.text ≠ "default")
    (hlaid : Laid (.word w :: ls) text rest) : ∃ t after, Loose t after ∧ Grows s t ∧
      t.parentheses = s.parentheses ∧ (s.tokens ≠ [] → 2 ≤ t.size) ∧ Laid ls after rest ∧
        s.read text = t.read after := by
  obtain ⟨run, after, hrun, rfl, hfits, hls⟩ := hlaid
  obtain ⟨c, cs, hw, hplain, _⟩ := w.exists_cons
  obtain ⟨hblank, _, hslash, _⟩ := isPlain_iff.1 hplain
  have htext : (Lexeme.word w).chars ++ after = c :: (cs ++ after) := by
    simp [Lexeme.chars, hw]
  rw [htext] at h ⊢
  rcases read_lead hrun h.plainly (not_mayJoin_of_isPlain hplain) hblank hslash (cs ++ after) with
    rfl | hlead
  · have hne : (s.extend w.text).current ≠ "" := by simp [extend, w.ne_empty]
    have hat : atAnnotation (s.extend w.text) = false := by
      by_cases hcurrent : s.current = ""
      · exact w.notAt_extend hcurrent
      · rw [atAnnotation_extend hcurrent, h.plainly]
    have hgrows : Grows s (s.extend w.text) := .of_tokens_eq rfl hne
    refine ⟨s.extend w.text, after, ⟨hat, fun hzero => ⟨?_, .inr (.inr hfits)⟩⟩, hgrows, rfl,
      fun htokens => hgrows.two_le_size htokens hne, hls, ?_⟩
    · -- The token is a word of its own, or it holds a character that is not plain.
      rcases (h.apart hzero).2 with hempty | ⟨d, hd, hnot⟩ | hapart
      · simpa [extend, hempty] using hdefault hzero
      · have hin : d ∈ (s.extend w.text).current.toList := by simp [extend, hd]
        exact ((of_mem hat hin hnot after).apart hzero).1
      · have hnot := hapart c rfl
        rw [hplain] at hnot
        cases hnot.1
    · rw [List.nil_append, ← htext, Lexeme.chars, read_word_append]
  · have hempty : s.endToken.current = "" := current_endToken s
    have hne : (s.endToken.extend w.text).current ≠ "" := by simp [extend, w.ne_empty]
    have hgrows : Grows s (s.endToken.extend w.text) :=
      (Grows.endToken h.plainly).trans (.of_tokens_eq rfl hne)
    refine ⟨s.endToken.extend w.text, after,
      ⟨w.notAt_extend hempty, fun hzero => ⟨?_, .inr (.inr hfits)⟩⟩, hgrows,
      parentheses_endToken s, fun htokens => hgrows.two_le_size htokens hne, hls, ?_⟩
    · have hzero' : s.endToken.parentheses = 0 := hzero
      rw [parentheses_endToken] at hzero'
      simpa [extend, hempty] using hdefault hzero'
    · rw [hlead, ← htext, Lexeme.chars, read_word_append]

/-- A literal is passed over. -/
theorem read_literal {q : Literal} (h : Loose s text) (hlaid : Laid (.literal q :: ls) text rest) :
    ∃ t after, Loose t after ∧ Grows s t ∧ t.parentheses = s.parentheses ∧ Laid ls after rest ∧
      s.read text = t.read after := by
  obtain ⟨run, after, hrun, rfl, _, hls⟩ := hlaid
  have htext : (Lexeme.literal q).chars ++ after =
      q.quote :: (q.content ++ q.quote :: after) := by simp [Lexeme.chars]
  have hjoin : mayJoin q.quote = false := by
    rcases isQuote_iff.1 q.isQuote with hq | hq <;> rw [hq] <;> decide
  have hpass : ∀ u : OpenStatement, u.read (q.quote :: (q.content ++ q.quote :: after)) =
      u.read after := by
    intro u
    rw [read_cons, step_quote q.isQuote, afterQuote_append q.isQuote q.escaped]
  rw [htext] at h ⊢
  rcases read_lead hrun h.plainly hjoin (isBlank_eq_false_of_isQuote q.isQuote)
    (ne_of_isQuote q.isQuote (by decide)) (q.content ++ q.quote :: after) with rfl | hlead
  · refine ⟨s, after, ⟨h.plainly, fun hzero => ?_⟩, .refl s, rfl, hls, hpass s⟩
    obtain ⟨hdefault, hempty | hmark | hapart⟩ := h.apart hzero
    · exact ⟨hdefault, .inl hempty⟩
    · exact ⟨hdefault, .inr (.inl hmark)⟩
    · have hnot := (hapart q.quote rfl).2
      rw [q.isQuote] at hnot
      cases hnot
  · exact ⟨s.endToken, after, .endToken s after, .endToken h.plainly, parentheses_endToken s, hls,
      hlead.trans (hpass _)⟩

/-! ### Marks that may join -/

/-- What a joining character makes of a statement.  After other tokens it makes
a second one, unless it is a comma, which may only end a token. -/
structure Joined (c : Char) (s t : OpenStatement) : Prop where
  loose : ∀ text, Loose t text
  grows : Grows s t
  parentheses : t.parentheses = s.parentheses
  size : s.tokens ≠ [] → c ≠ ',' → 2 ≤ t.size

namespace Joined

variable {c d : Char}

/-- A token with a mark in it is being read. -/
theorem of_mem (hgrows : Grows s t) (hparentheses : t.parentheses = s.parentheses)
    (hat : t.atAnnotation = false) (hd : d ∈ t.current.toList) (hplain : isPlain d = false) :
    Joined c s t := by
  have hcurrent : t.current ≠ "" := by intro h; rw [h] at hd; cases hd
  exact ⟨fun text => .of_mem hat hd hplain text, hgrows, hparentheses,
    fun htokens _ => hgrows.two_le_size htokens hcurrent⟩

theorem push (hat : s.atAnnotation = false) (hplain : isPlain c = false) (hne : c ≠ '@') :
    Joined c s ((s.countAngle c).push c) := by
  have hmem : c ∈ ((s.countAngle c).push c).current.toList := by simp [OpenStatement.push]
  have hcurrent : ((s.countAngle c).push c).current ≠ "" := by
    intro h
    rw [h] at hmem
    cases hmem
  refine of_mem (.of_tokens_eq (tokens_countAngle s c) hcurrent) (parentheses_countAngle s c) ?_
    hmem hplain
  rw [push_eq_extend]
  by_cases hempty : s.current = ""
  · simp [ atAnnotation, extend, hempty, hne]
  · rw [atAnnotation_extend (by rwa [current_countAngle])]
    simpa [ atAnnotation] using hat

theorem endToken (h : Joined c s t) : Joined c s t.endToken := by
  have hended := Grows.endToken (h.loose []).plainly
  exact ⟨fun text => .endToken t text, h.grows.trans hended,
    (parentheses_endToken t).trans h.parentheses,
    fun htokens hc => Nat.le_trans (h.size htokens hc) hended.size⟩

end Joined

/-- A joining character adds to the token, or ends it. -/
theorem joint_joined {c : Char} (hat : s.atAnnotation = false)
    (hc : c ∈ ['.', ',', '<', '>', '[', ']', '?']) (after : List Char) :
    ∃ t, (s.joint c after = (t, after) ∨ s.joint c after = (t, skipBlanks after)) ∧
      Joined c s t := by
  have hkinds : ∀ d ∈ ['.', ',', '<', '>', '[', ']', '?'], isPlain d = false ∧ d ≠ '@' := by decide
  obtain ⟨hplain, hne⟩ := hkinds c hc
  have hcounted : atAnnotation (s.countAngle c) = false := by simpa [ atAnnotation] using hat
  have hended : Grows s (s.countAngle c).endToken := by
    have hcount : Grows s (s.countAngle c) :=
      ⟨tokens_countAngle s c ▸ List.prefix_refl _, by simp [size]⟩
    exact hcount.trans (.endToken hcounted)
  have hparentheses : (s.countAngle c).endToken.parentheses = s.parentheses := by
    rw [parentheses_endToken, parentheses_countAngle]
  have hpushed : Joined c s ((s.countAngle c).push c) := .push hat hplain hne
  rw [joint]
  dsimp only
  split
  · -- Type parameters begin a token of their own.
    exact ⟨_, .inr rfl, .of_mem (d := '<') (hended.trans (.of_tokens_eq rfl (by simp)))
      hparentheses (by simp [ atAnnotation]) (by simp) (by decide)⟩
  split
  · exact ⟨_, .inr rfl, hpushed⟩
  split
  · exact ⟨_, .inl rfl, hpushed.endToken⟩
  · next hjoins hcloses =>
      refine ⟨_, .inl rfl, fun text => .endToken _ text, hended, hparentheses, fun _ hcomma => ?_⟩
      have hopen : closesToken c = false := by simpa using hcloses
      exact absurd (by simp [joins, hopen, hcomma]) hjoins

/-- A mark that may join adds to the token, or ends it. -/
theorem read_joining {c : Char} (h : Loose s text) (hc : c ∈ ['.', ',', '<', '>', '[', ']', '?'])
    (hlaid : Laid (.mark c :: l :: ls) text rest) : ∃ t after, Loose t after ∧ Grows s t ∧
      t.parentheses = s.parentheses ∧ (s.tokens ≠ [] → c ≠ ',' → 2 ≤ t.size) ∧
        Laid (l :: ls) after rest ∧ s.read text = t.read after := by
  obtain ⟨run, after, hrun, rfl, _, hls⟩ := hlaid
  have hkinds : ∀ d ∈ ['.', ',', '<', '>', '[', ']', '?'], mayJoin d = true ∧ isBlank d = false ∧
      d ≠ '/' ∧ interruptsName d = true ∧ isQuote d = false ∧ d ≠ '(' ∧ d ≠ ')' ∧
        mayEnd d = false ∧ isPlain d = false ∧ d ≠ '@' := by decide
  obtain ⟨hjoin, hblank, hslash, hinterrupts, hquote, hopen, hclose, hends, hplain, hne⟩ :=
    hkinds c hc
  rw [Lexeme.chars, List.singleton_append] at h ⊢
  by_cases hdirect : run = [] ∧ s.current = ""
  · obtain ⟨rfl, hcurrent⟩ := hdirect
    -- Between tokens the mark begins a token.
    obtain ⟨u, hread, htokens, hparentheses, hnew⟩ : ∃ u : OpenStatement,
        s.read (c :: after) = u.read after ∧ u.tokens = s.tokens ∧
          u.parentheses = s.parentheses ∧ u.current = String.singleton c := by
      rw [read_cons, step, if_neg (by simp [hblank, hslash]), if_neg (by simp [hcurrent]),
        if_neg (by simp [hquote]), if_neg hopen, if_neg hclose, if_neg (by simp [hends])]
      by_cases hangle : c = '<'
      · rw [if_pos hangle]
        refine ⟨_, rfl, tokens_countAngle s c, parentheses_countAngle s c, ?_⟩
        simp [push_eq_extend, extend, hcurrent]
      · rw [if_neg hangle]
        exact ⟨_, rfl, rfl, rfl, by simp [push_eq_extend, extend, hcurrent]⟩
    have hmem : c ∈ u.current.toList := by simp [hnew]
    have hnonempty : u.current ≠ "" := by intro hu; rw [hu] at hmem; cases hmem
    have hat : u.atAnnotation = false := by simp [ atAnnotation, hnew, hne]
    have hjoined : Joined c s u :=
      .of_mem (.of_tokens_eq htokens hnonempty) hparentheses hat hmem hplain
    exact ⟨u, after, hjoined.loose after, hjoined.grows, hparentheses, hjoined.size, hls, hread⟩
  · have hboundary : s.read (run ++ c :: after) = (s.joint c after).1.read (s.joint c after).2 := by
      have hjoint : s.boundary c after = s.joint c after := by rw [boundary, if_pos hjoin]
      by_cases hempty : run = []
      · subst hempty
        have hcurrent : s.current ≠ "" := fun hs => hdirect ⟨rfl, hs⟩
        rw [List.nil_append, read_interrupting hcurrent hinterrupts, hjoint]
      · rw [read_blanks_append s hrun hempty hblank hslash, hjoint]
    obtain ⟨t, hjoint, hjoined⟩ := joint_joined h.plainly hc after
    rcases hjoint with hjoint | hjoint
    · rw [hjoint] at hboundary
      exact ⟨t, after, hjoined.loose after, hjoined.grows, hjoined.parentheses, hjoined.size, hls,
        hboundary⟩
    · rw [hjoint] at hboundary
      exact ⟨t, skipBlanks after, hjoined.loose _, hjoined.grows, hjoined.parentheses, hjoined.size,
        hls.of_skipBlanks, hboundary⟩

/-! ### Other marks -/

/-- A slash is passed over like a blank. -/
theorem read_mark_slash (hlaid : Laid (.mark '/' :: ls) text rest) (h : Loose s text) :
    ∃ after, Loose s after ∧ Laid ls after rest ∧ s.read text = s.read after := by
  obtain ⟨run, after, hrun, rfl, ⟨_, hcomment⟩, hls⟩ := hlaid
  obtain ⟨hline, hblock⟩ := hcomment rfl
  have hblank : isBlank ' ' = true := by decide
  refine ⟨' ' :: after, ⟨h.plainly, fun hzero => ?_⟩, hls.blank hblank, ?_⟩
  · refine ⟨(h.apart hzero).1, .inr (.inr ?_)⟩
    rintro c hc
    cases hc
    decide
  · rw [Lexeme.chars, List.singleton_append]
    cases run with
    | nil => exact read_slash s hline hblock
    | cons b run =>
        -- The blanks before the slash are a gap together with it.
        have hb := hrun b List.mem_cons_self
        have hgaps : skipGaps (b :: (run ++ '/' :: after)) = skipGaps (' ' :: after) := by
          rw [← List.cons_append, skipGaps_blanks_append hrun, skipGaps_slash,
            afterSlash_eq_self hline hblock, skipGaps_cons_of_isBlank hblank]
        rw [List.cons_append, read_cons, read_cons, step, step, if_pos (.inl hb),
          if_pos (.inl hblank), hgaps]

theorem read_mark_open (h : Loose s text) (hlaid : Laid (.mark '(' :: ls) text rest) :
    ∃ after, Laid ls after rest ∧ s.read text = s.endToken.openParenthesis.read after := by
  have hstands := h.stands hlaid (by decide)
  obtain ⟨after, hls, hread⟩ := hstands.read_stop hlaid (by decide)
  exact ⟨after, hls, hread.trans (read_openParenthesis (current_endToken s) after)⟩

theorem read_mark_close (h : Loose s text) (hlaid : Laid (.mark ')' :: l :: ls) text rest) :
    ∃ after, Laid (l :: ls) after rest ∧ skipBlanks after = after ∧
      s.read text = (s.endToken.closeParenthesis after).read after := by
  have hstands := h.stands hlaid (by decide)
  obtain ⟨after, hls, hread⟩ := hstands.read_stop hlaid (by decide)
  exact ⟨skipBlanks after, hls.of_skipBlanks, hls.skipBlanks_skipBlanks,
    hread.trans (read_closeParenthesis (current_endToken s) after)⟩

/-- Where a mark may end a statement the token has ended or not. -/
theorem read_ending_lead {c : Char} (h : Loose s text) (hc : c ∈ [';', '\x7d', ':'])
    (hlaid : Laid (.mark c :: ls) text rest) : ∃ u after, u.atAnnotation = false ∧ Grows s u ∧
      u.parentheses = s.parentheses ∧ Stands u s.endToken (c :: after) ∧ (u = s ∨ u = s.endToken) ∧
        Laid ls after rest ∧ s.read text = u.read (c :: after) := by
  have hkinds : ∀ d ∈ [';', '\x7d', ':'], isPlain d = false ∧ isQuote d = false := by decide
  have hstands := h.stands hlaid (hkinds c hc)
  obtain ⟨u, after, hu, hstandsu, hls, hread⟩ := hstands.read_ending hlaid hc
  refine ⟨u, after, hstandsu.plainly, ?_, ?_, hstandsu, hu, hls, hread⟩
  · rcases hu with rfl | rfl
    · exact .refl u
    · exact .endToken h.plainly
  · rw [hstandsu.parentheses_eq, parentheses_endToken]

/-- A colon that ends no label goes on with the token. -/
theorem read_colon (h : Loose s text) (hlabel : s.endsInLabel = false)
    (hlabel' : s.endToken.endsInLabel = false) (hlaid : Laid (.mark ':' :: ls) text rest) :
    ∃ t after, Loose t after ∧ Grows s t ∧ t.parentheses = s.parentheses ∧ Laid ls after rest ∧
      s.read text = t.read after := by
  obtain ⟨u, after, hat, hgrows, hparentheses, _, hu, hls, hread⟩ :=
    h.read_ending_lead (by decide) hlaid
  have hnot : u.endsInLabel = false := by
    rcases hu with rfl | rfl
    · exact hlabel
    · exact hlabel'
  have hmem : ':' ∈ (u.push ':').current.toList := by simp [push]
  have hnonempty : (u.push ':').current ≠ "" := by intro hempty; rw [hempty] at hmem; cases hmem
  have hplainly : atAnnotation (u.push ':') = false := by
    rw [push_eq_extend]
    by_cases hempty : u.current = ""
    · simp [ atAnnotation, extend, hempty]
    · rw [atAnnotation_extend hempty, hat]
  refine ⟨u.push ':', after, .of_mem hplainly hmem (by decide) after,
    hgrows.trans (.of_tokens_eq rfl hnonempty), hparentheses, hls, ?_⟩
  rw [hread, read_cons, step_mayEnd (by decide) (.inr (by decide)), readEnding,
    if_pos ⟨rfl, hnot⟩]

/-- Inside parentheses a mark that may end a statement does not. -/
theorem read_ending_inside {c : Char} (h : Loose s text) (hc : c ∈ ['=', ':', ';'])
    (hinside : 0 < s.parentheses) (hlaid : Laid (.mark c :: ls) text rest) :
    ∃ t after, Loose t after ∧ Grows s t ∧ t.parentheses = s.parentheses ∧ Laid ls after rest ∧
      s.read text = t.read after := by
  -- Inside parentheses it does not matter where the token ends.
  have hloose : ∀ u : OpenStatement, u.atAnnotation = false → u.parentheses = s.parentheses →
      ∀ text, Loose u text := by
    intro u hat hparentheses text
    exact ⟨hat, fun hzero => by omega⟩
  by_cases hequals : c = '='
  · subst hequals
    have hstands := h.stands hlaid (by decide)
    obtain ⟨after, hls, hread⟩ := hstands.read_stop hlaid (by decide)
    refine ⟨s.endToken, after, .endToken s after, .endToken h.plainly, parentheses_endToken s, hls, ?_⟩
    rw [hread, read_cons, step_mayEnd (by decide) (.inl (current_endToken s)), readEnding,
      if_neg (by simp), if_pos (by rwa [parentheses_endToken])]
  · have hends : c ∈ [';', '\x7d', ':'] := by
      simp only [List.mem_cons, hequals, false_or, List.not_mem_nil, or_false] at hc
      rcases hc with rfl | rfl <;> decide
    obtain ⟨u, after, hat, hgrows, hparentheses, _, _, hls, hread⟩ := h.read_ending_lead hends hlaid
    have hkinds : ∀ d ∈ [';', '\x7d', ':'], mayEnd d = true ∧ interruptsName d = false ∧
        d ≠ '@' := by decide
    obtain ⟨hmay, hinterrupts, hne⟩ := hkinds c hends
    have hopen : 0 < u.parentheses := by rwa [hparentheses]
    rw [read_cons, step_mayEnd hmay (.inr hinterrupts), readEnding] at hread
    by_cases hpush : c = ':' ∧ u.endsInLabel = false
    · rw [if_pos hpush] at hread
      have hnonempty : (u.push c).current ≠ "" := by simp [push_eq_extend, extend]
      have hplainly : atAnnotation (u.push c) = false := by
        rw [push_eq_extend]
        by_cases hempty : u.current = ""
        · simp [ atAnnotation, extend, hempty, hne]
        · rw [atAnnotation_extend hempty, hat]
      exact ⟨u.push c, after, hloose _ hplainly hparentheses after,
        hgrows.trans (.of_tokens_eq rfl hnonempty), hparentheses, hls, hread⟩
    · rw [if_neg hpush, if_pos hopen] at hread
      exact ⟨u, after, hloose u hat hparentheses after, hgrows, hparentheses, hls, hread⟩

/-! ### Parentheses -/

theorem read_opening (h : Loose s text) (hlaid : Laid (.mark '(' :: ls) text rest) :
    ∃ t after, Loose t after ∧ Grows s t ∧ t.parentheses = s.parentheses + 1 ∧
      t.tokens = s.endToken.tokens ++ ["("] ∧ Laid ls after rest ∧ s.read text = t.read after := by
  obtain ⟨after, hls, hread⟩ := h.read_mark_open hlaid
  have hcurrent : s.endToken.openParenthesis.current = "" := current_endToken s
  have hgrows : Grows s.endToken s.endToken.openParenthesis :=
    ⟨List.prefix_append _ _, by simp [size, openParenthesis, current_endToken]⟩
  refine ⟨_, after, .of_current_eq_empty hcurrent after, (Grows.endToken h.plainly).trans hgrows,
    ?_, rfl, hls, hread⟩
  rw [openParenthesis, parentheses_endToken]

/-- A parenthesis that is closed where tokens are firm drops none. -/
theorem read_closing (h : Loose s text) (hfirm : Firm s.tokens)
    (hlaid : Laid (.mark ')' :: l :: ls) text rest) : ∃ t after, Loose t after ∧ Grows s t ∧
      t.parentheses = s.parentheses - 1 ∧ t.current = "" ∧ Laid (l :: ls) after rest ∧
        s.read text = t.read after := by
  obtain ⟨after, hls, _, hread⟩ := h.read_mark_close hlaid
  have hgrows : Grows s s.endToken := .endToken h.plainly
  have hclosed : s.endToken.closeParenthesis after = s.endToken.closed :=
    closeParenthesis_eq_closed (.inr (hfirm.mono hgrows.tokens))
  have hcurrent : s.endToken.closed.current = "" := current_endToken s
  have hmore : Grows s.endToken s.endToken.closed :=
    ⟨List.prefix_append _ _, by simp [size, closed, current_endToken]⟩
  refine ⟨_, after, .of_current_eq_empty hcurrent after, hgrows.trans hmore, ?_, hcurrent, hls, ?_⟩
  · rw [closed, parentheses_endToken]
  · rw [hread, hclosed]

/-! ### Any lexeme -/

/-- A lexeme that neither is a parenthesis nor may end the statement. -/
theorem read_lexeme {x : Lexeme} (h : Loose s text)
    (hword : ∀ w, x = .word w → s.parentheses = 0 → w.text ≠ "default")
    (hmark : ∀ c, x = .mark c → c ∈ ['<', '>', '.', '?', '[', ']', ',', '/'] ∨
      (c ∈ ['=', ':', ';'] ∧ 0 < s.parentheses))
    (hlaid : Laid (x :: l :: ls) text rest) : ∃ t after, Loose t after ∧ Grows s t ∧
      t.parentheses = s.parentheses ∧ (s.tokens ≠ [] → x.counts = true → 2 ≤ t.size) ∧
        Laid (l :: ls) after rest ∧ s.read text = t.read after := by
  cases x with
  | word w =>
      obtain ⟨t, after, ht, hgrows, hparentheses, hsize, hls, hread⟩ :=
        h.read_word (hword w rfl) hlaid
      exact ⟨t, after, ht, hgrows, hparentheses, fun hsome _ => hsize hsome, hls, hread⟩
  | literal q =>
      obtain ⟨t, after, ht, hgrows, hparentheses, hls, hread⟩ := h.read_literal hlaid
      exact ⟨t, after, ht, hgrows, hparentheses, fun _ hcounts => (by cases hcounts), hls,
        hread⟩
  | mark c =>
      rcases hmark c rfl with hc | ⟨hc, hinside⟩
      · by_cases hslash : c = '/'
        · subst hslash
          obtain ⟨after, ht, hls, hread⟩ := read_mark_slash hlaid h
          exact ⟨s, after, ht, .refl s, rfl, fun _ hcounts => absurd hcounts (by decide), hls, hread⟩
        · have hjoin : c ∈ ['.', ',', '<', '>', '[', ']', '?'] := by
            simp only [List.mem_cons, List.not_mem_nil, or_false] at hc ⊢
            grind
          obtain ⟨t, after, ht, hgrows, hparentheses, hsize, hls, hread⟩ :=
            h.read_joining hjoin hlaid
          refine ⟨t, after, ht, hgrows, hparentheses, fun hsome hcounts => hsize hsome ?_, hls, hread⟩
          rintro rfl
          exact absurd hcounts (by decide)
      · obtain ⟨t, after, ht, hgrows, hparentheses, hls, hread⟩ :=
          h.read_ending_inside hc hinside hlaid
        refine ⟨t, after, ht, hgrows, hparentheses, fun _ hcounts => ?_, hls, hread⟩
        have hnot : ∀ d ∈ ['=', ':', ';'], (Lexeme.mark d).counts = false := by decide
        rw [hnot c hc] at hcounts
        cases hcounts

end Loose

end OpenStatement

/-! ## Walkers -/

open OpenStatement

/-- Inside a parenthesis, some lexemes are read up to the closing
parentheses that are awaited. -/
def ReadInside (stack : List Char) (ls : List Lexeme) : Prop :=
  ∀ (s : OpenStatement) (l : Lexeme) (more : List Lexeme) (text rest : List Char), Loose s text →
    2 ≤ s.tokens.length → (')' ∈ stack → Firm s.tokens) → (stack.count ')' : Int) < s.parentheses →
      Laid (ls ++ l :: more) text rest → ∃ t after, Loose t after ∧ Grows s t ∧
        t.parentheses = s.parentheses - stack.count ')' ∧ Laid (l :: more) after rest ∧
          s.read text = t.read after

namespace ReadInside

variable {stack stack' : List Char} {ls : List Lexeme}

theorem nil : ReadInside [] [] := by
  intro s l more text rest hs _ _ _ hlaid
  exact ⟨s, text, hs, .refl s, by simp, hlaid, rfl⟩

theorem lexeme {x : Lexeme} (hx : ∀ c, x = .mark c → c ∈ innerMarks ∧ c ≠ '(' ∧ c ≠ ')')
    (hcount : stack'.count ')' = stack.count ')') (h : ReadInside stack' ls) :
    ReadInside stack (x :: ls) := by
  intro s l more text rest hs hlength hfirm hinside hlaid
  obtain ⟨first, others, hsplit⟩ :=
    List.exists_cons_of_ne_nil (l := ls ++ l :: more) (by simp)
  rw [List.cons_append, hsplit] at hlaid
  have hkinds : ∀ c ∈ innerMarks, c ≠ '(' → c ≠ ')' →
      c ∈ ['<', '>', '.', '?', '[', ']', ',', '/'] ∨ c ∈ ['=', ':', ';'] := by decide
  have hopen : 0 < s.parentheses := by omega
  have hmark : ∀ c, x = .mark c → c ∈ ['<', '>', '.', '?', '[', ']', ',', '/'] ∨
      (c ∈ ['=', ':', ';'] ∧ 0 < s.parentheses) := by
    intro c hc
    obtain ⟨hinner, hleft, hright⟩ := hx c hc
    rcases hkinds c hinner hleft hright with hjoins | hends
    · exact .inl hjoins
    · exact .inr ⟨hends, hopen⟩
  obtain ⟨t, mid, ht, hgrows, hparentheses, _, hmid, hread⟩ :=
    hs.read_lexeme (fun _ _ hzero => by omega) hmark hlaid
  rw [← hsplit] at hmid
  have hmember : ')' ∈ stack' → ')' ∈ stack := by
    intro hin
    rw [← List.count_pos_iff, ← hcount]
    exact List.count_pos_iff.2 hin
  obtain ⟨u, after, hu, hgrows', hcloses, hafter, hread'⟩ := h t l more mid rest ht
    (Nat.le_trans hlength hgrows.tokens.length_le) (fun hin => (hfirm (hmember hin)).mono hgrows.tokens)
    (by omega) hmid
  exact ⟨u, after, hu, hgrows.trans hgrows', by omega, hafter, hread.trans hread'⟩

theorem opening (h : ReadInside (')' :: stack) ls) : ReadInside stack (.mark '(' :: ls) := by
  intro s l more text rest hs hlength hfirm hinside hlaid
  obtain ⟨t, mid, ht, hgrows, hparentheses, htokens, hmid, hread⟩ := hs.read_opening hlaid
  have hended : 2 ≤ s.endToken.tokens.length :=
    Nat.le_trans hlength (Grows.endToken hs.plainly).tokens.length_le
  have hfirm' : Firm t.tokens := by
    rw [htokens]
    exact .of_two_le hended
  have hcount : (')' :: stack).count ')' = stack.count ')' + 1 := by simp
  obtain ⟨u, after, hu, hgrows', hcloses, hafter, hread'⟩ := h t l more mid rest ht
    (Nat.le_trans hlength hgrows.tokens.length_le) (fun _ => hfirm') (by omega) hmid
  exact ⟨u, after, hu, hgrows.trans hgrows', by omega, hafter, hread.trans hread'⟩

theorem closing (h : ReadInside stack ls) : ReadInside (')' :: stack) (.mark ')' :: ls) := by
  intro s l more text rest hs hlength hfirm hinside hlaid
  obtain ⟨first, others, hsplit⟩ :=
    List.exists_cons_of_ne_nil (l := ls ++ l :: more) (by simp)
  rw [List.cons_append, hsplit] at hlaid
  have hkept := hfirm List.mem_cons_self
  obtain ⟨t, mid, ht, hgrows, hparentheses, _, hmid, hread⟩ := hs.read_closing hkept hlaid
  rw [← hsplit] at hmid
  have hcount : (')' :: stack).count ')' = stack.count ')' + 1 := by simp
  obtain ⟨u, after, hu, hgrows', hcloses, hafter, hread'⟩ := h t l more mid rest ht
    (Nat.le_trans hlength hgrows.tokens.length_le) (fun _ => hkept.mono hgrows.tokens) (by omega) hmid
  exact ⟨u, after, hu, hgrows.trans hgrows', by omega, hafter, hread.trans hread'⟩

end ReadInside

/-- Lexemes with nested brackets are read inside a parenthesis. -/
theorem Nests.readInside {allowed : List Char → Char → Bool} {stack : List Char}
    {ls : List Lexeme} (h : Nests allowed stack ls)
    (hallowed : ∀ stack c, allowed stack c = true → c ∈ innerMarks) : ReadInside stack ls := by
  induction ls generalizing stack with
  | nil =>
      cases h
      exact .nil
  | cons x ls ih =>
      cases x with
      | word w =>
          cases h with
          | word _ h => exact .lexeme (by simp) rfl (ih h)
      | literal q =>
          cases h with
          | literal _ h => exact .lexeme (by simp) rfl (ih h)
      | mark c =>
          obtain ⟨hc, hls, hkind⟩ := h.mark_cases
          have hinner := hallowed stack c hc
          have hinside := ih hls
          rcases hkind with ⟨rfl, hawaited⟩ | ⟨rfl, hawaited⟩ | ⟨hleft, hright, hcount⟩
          · rw [hawaited] at hinside
            exact .opening hinside
          · rw [hawaited]
            exact .closing hinside
          · exact .lexeme (by rintro d hd; cases hd; exact ⟨hinner, hleft, hright⟩) hcount hinside

end JavaOutline
