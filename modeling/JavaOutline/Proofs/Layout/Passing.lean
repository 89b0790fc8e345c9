import JavaOutline.Proofs.Layout.Lexemes

/-!
# JavaOutline.Proofs.Layout.Passing

Passing over laid out lexemes whose brackets are closed in order.

* `Passes` — lexemes after which a block is as deep as before; words,
  literals and other marks are, and so is a block of them in braces
  (`Passes.block`), so the reader that looks for the end of a block finds
  the right brace (`Passes.afterBracket_eq`);
* `nests` — lexemes with brackets of every kind closed in order.  They are
  passed over (`passes_of_nests`), and an initializer made of them goes on
  to its separator (`Nests.initializerEnd_eq`).
-/

namespace JavaOutline

open Text

/-! ## Inside braces -/

/-- Lexemes that leave a block as deep as it was. -/
def Passes (ls : List Lexeme) : Prop :=
  ∀ (depth : Nat) (text rest : List Char), Laid ls text rest →
    afterBracket '\x7b' '\x7d' depth text = afterBracket '\x7b' '\x7d' depth rest

/-- The depth inside braces after one more lexeme. -/
theorem afterBracket_lexeme {l : Lexeme} (hopening : l ≠ .mark '\x7b') (hclosing : l ≠ .mark '\x7d')
    {after : List Char} (hfits : l.Fits after) (depth : Nat) :
    afterBracket '\x7b' '\x7d' depth (l.chars ++ after) = afterBracket '\x7b' '\x7d' depth after := by
  have hplain : ∀ (cs : List Char), (∀ c ∈ cs, isPlain c = true) →
      afterBracket '\x7b' '\x7d' depth (cs ++ after) = afterBracket '\x7b' '\x7d' depth after := by
    intro cs hcs
    induction cs with
    | nil => rfl
    | cons c cs ih =>
        obtain ⟨_, hquote, hslash, hinterrupts, hends⟩ := isPlain_iff.1 (hcs c List.mem_cons_self)
        have hleft : c ≠ '\x7b' := by rintro rfl; exact absurd hinterrupts (by decide)
        have hright : c ≠ '\x7d' := by rintro rfl; exact absurd hends (by decide)
        rw [List.cons_append, afterBracket_cons _ _ _ hslash hquote hleft hright]
        exact ih fun d hd => hcs d (List.mem_cons_of_mem c hd)
  cases l with
  | word w => exact hplain _ fun c hc => w.isPlain_of_mem hc
  | literal l =>
      have htext : l.quote :: (l.content ++ [l.quote]) ++ after =
          l.quote :: (l.content ++ l.quote :: after) := by simp
      rw [Lexeme.chars, htext, afterBracket_quote _ _ _ l.isQuote,
        afterQuote_append l.isQuote l.escaped]
  | mark c =>
      obtain ⟨hmark, hcomment⟩ := hfits
      rw [Lexeme.chars, List.singleton_append]
      by_cases hslash : c = '/'
      · subst hslash
        obtain ⟨hline, hblock⟩ := hcomment rfl
        rw [afterBracket_slash, afterSlash_eq_self hline hblock]
      · have hleft : c ≠ '\x7b' := fun hc => hopening (by rw [hc])
        have hright : c ≠ '\x7d' := fun hc => hclosing (by rw [hc])
        rw [afterBracket_cons _ _ _ hslash (not_isBlank_of_isMark hmark).2 hleft hright]

theorem Laid.afterBracket_nil {text rest : List Char} (h : Laid [] text rest) (depth : Nat) :
    afterBracket '\x7b' '\x7d' depth text = afterBracket '\x7b' '\x7d' depth rest := by
  obtain ⟨run, hrun, rfl⟩ := h
  rw [afterBracket_blanks_append _ _ _ (by decide) (by decide) hrun]

/-- A brace is reached after the blanks before it. -/
theorem Laid.afterBracket_opening {ls : List Lexeme} {text rest : List Char}
    (h : Laid (.mark '\x7b' :: ls) text rest) (depth : Nat) :
    ∃ after, Laid ls after rest ∧
      afterBracket '\x7b' '\x7d' depth text = afterBracket '\x7b' '\x7d' (depth + 1) after := by
  obtain ⟨run, after, hrun, rfl, _, hls⟩ := h
  refine ⟨after, hls, ?_⟩
  rw [afterBracket_blanks_append _ _ _ (by decide) (by decide) hrun, Lexeme.chars,
    List.singleton_append, afterBracket.eq_def]
  rfl

theorem Laid.afterBracket_closing {ls : List Lexeme} {text rest : List Char}
    (h : Laid (.mark '\x7d' :: ls) text rest) :
    ∃ after, Laid ls after rest ∧ afterBracket '\x7b' '\x7d' 0 text = after ∧
      ∀ depth, afterBracket '\x7b' '\x7d' (depth + 1) text =
        afterBracket '\x7b' '\x7d' depth after := by
  obtain ⟨run, after, hrun, rfl, _, hls⟩ := h
  refine ⟨after, hls, ?_, fun depth => ?_⟩
  · rw [afterBracket_blanks_append _ _ _ (by decide) (by decide) hrun, Lexeme.chars,
      List.singleton_append, afterBracket.eq_def]
    rfl
  · rw [afterBracket_blanks_append _ _ _ (by decide) (by decide) hrun, Lexeme.chars,
      List.singleton_append, afterBracket.eq_def]
    rfl

namespace Passes

theorem nil : Passes [] := fun depth _ _ h => h.afterBracket_nil depth

theorem cons {l : Lexeme} {ls : List Lexeme} (hopening : l ≠ .mark '\x7b')
    (hclosing : l ≠ .mark '\x7d') (h : Passes ls) : Passes (l :: ls) := by
  rintro depth text rest ⟨run, after, hrun, rfl, hfits, hls⟩
  rw [afterBracket_blanks_append _ _ _ (by decide) (by decide) hrun,
    afterBracket_lexeme hopening hclosing hfits]
  exact h depth after rest hls

theorem append {xs ys : List Lexeme} (hxs : Passes xs) (hys : Passes ys) : Passes (xs ++ ys) := by
  intro depth text rest h
  obtain ⟨mid, hleft, hright⟩ := h.append
  rw [hxs depth text mid hleft, hys depth mid rest hright]

/-- A block in braces is passed over if what it holds is. -/
theorem block {ls more : List Lexeme} (h : Passes ls) (hmore : Passes more) :
    Passes (.mark '\x7b' :: (ls ++ .mark '\x7d' :: more)) := by
  intro depth text rest hlaid
  obtain ⟨inside, hinside, hopen⟩ := hlaid.afterBracket_opening depth
  obtain ⟨mid, hbody, hclose⟩ := hinside.append
  obtain ⟨after, hafter, _, hdepth⟩ := hclose.afterBracket_closing
  rw [hopen, h (depth + 1) inside mid hbody, hdepth depth]
  exact hmore depth after rest hafter

/-- The end of a block is the brace after what it holds. -/
theorem afterBracket_eq {ls more : List Lexeme} (h : Passes ls) {body rest : List Char}
    (hlaid : Laid (ls ++ .mark '\x7d' :: more) body rest) :
    Laid more (afterBracket '\x7b' '\x7d' 0 body) rest := by
  obtain ⟨mid, hbody, hclose⟩ := hlaid.append
  obtain ⟨after, hafter, hend, _⟩ := hclose.afterBracket_closing
  rw [h 0 body mid hbody, hend]
  exact hafter

end Passes

/-! ## Nested brackets -/

/-- The bracket that closes an opening one. -/
def closerOf : Char → Option Char
  | '(' => some ')'
  | '[' => some ']'
  | '\x7b' => some '\x7d'
  | _ => none

/-- Whether a character is a closing bracket. -/
def isCloser (c : Char) : Bool := [')', ']', '\x7d'].contains c

/-- Whether brackets are closed in order, `stack` holding the closing ones
that are still awaited; `allowed` says which marks may stand there. -/
def nests (allowed : List Char → Char → Bool) : List Char → List Lexeme → Bool
  | stack, [] => stack.isEmpty
  | stack, .mark c :: ls =>
    allowed stack c &&
      match closerOf c with
      | some d => nests allowed (d :: stack) ls
      | none =>
        if isCloser c then stack.head? == some c && nests allowed stack.tail ls
        else nests allowed stack ls
  | stack, _ :: ls => nests allowed stack ls

/-- What nested brackets begin with, and what is nested after it. -/
inductive Nests (allowed : List Char → Char → Bool) : List Char → List Lexeme → Prop
  | nil : Nests allowed [] []
  | word {stack : List Char} {ls : List Lexeme} (w : Word) (h : Nests allowed stack ls) :
      Nests allowed stack (.word w :: ls)
  | literal {stack : List Char} {ls : List Lexeme} (l : Literal) (h : Nests allowed stack ls) :
      Nests allowed stack (.literal l :: ls)
  | opening {stack : List Char} {ls : List Lexeme} {c d : Char} (hallowed : allowed stack c = true)
      (hcloser : closerOf c = some d) (h : Nests allowed (d :: stack) ls) :
      Nests allowed stack (.mark c :: ls)
  | closing {stack : List Char} {ls : List Lexeme} {c : Char}
      (hallowed : allowed (c :: stack) c = true) (hcloser : isCloser c = true)
      (h : Nests allowed stack ls) : Nests allowed (c :: stack) (.mark c :: ls)
  | other {stack : List Char} {ls : List Lexeme} {c : Char} (hallowed : allowed stack c = true)
      (hopening : closerOf c = none) (hclosing : isCloser c = false) (h : Nests allowed stack ls) :
      Nests allowed stack (.mark c :: ls)

theorem Nests.of_nests {allowed : List Char → Char → Bool} {stack : List Char} {ls : List Lexeme}
    (h : nests allowed stack ls = true) : Nests allowed stack ls := by
  induction ls generalizing stack with
  | nil =>
      cases stack with
      | nil => exact .nil
      | cons d stack => simp [nests] at h
  | cons l ls ih =>
      cases l with
      | word w => exact .word w (ih (by simpa [nests] using h))
      | literal l => exact .literal l (ih (by simpa [nests] using h))
      | mark c =>
          rw [nests, Bool.and_eq_true] at h
          obtain ⟨hallowed, h⟩ := h
          cases hcloser : closerOf c with
          | some d =>
              rw [hcloser] at h
              exact .opening hallowed hcloser (ih h)
          | none =>
              simp only [hcloser] at h
              cases hclosing : isCloser c with
              | false =>
                  simp only [hclosing] at h
                  exact .other hallowed hcloser hclosing (ih h)
              | true =>
                  simp only [hclosing, if_true, Bool.and_eq_true, beq_iff_eq] at h
                  cases stack with
                  | nil => simp at h
                  | cons d stack =>
                      obtain ⟨hhead, h⟩ := h
                      simp only [List.head?_cons, Option.some.injEq] at hhead
                      subst hhead
                      exact .closing hallowed hclosing (ih h)

theorem closerOf_cases {c d : Char} (h : closerOf c = some d) :
    (c = '(' ∧ d = ')') ∨ (c = '[' ∧ d = ']') ∨ (c = '\x7b' ∧ d = '\x7d') := by
  unfold closerOf at h
  split at h <;> cases h <;> simp

theorem isCloser_cases {c : Char} (h : isCloser c = true) : c = ')' ∨ c = ']' ∨ c = '\x7d' := by
  simpa [isCloser] using h

/-- The closing brackets that are awaited after a mark. -/
def awaited (stack : List Char) (c : Char) : List Char :=
  match closerOf c with
  | some d => d :: stack
  | none => if isCloser c then stack.tail else stack

/-- A mark opens a parenthesis, closes one, or leaves those that are
awaited as they are. -/
theorem Nests.mark_cases {allowed : List Char → Char → Bool} {stack : List Char} {c : Char}
    {ls : List Lexeme} (h : Nests allowed stack (.mark c :: ls)) :
    allowed stack c = true ∧ Nests allowed (awaited stack c) ls ∧
      ((c = '(' ∧ awaited stack c = ')' :: stack) ∨ (c = ')' ∧ stack = ')' :: awaited stack c) ∨
        (c ≠ '(' ∧ c ≠ ')' ∧ (awaited stack c).count ')' = stack.count ')')) := by
  cases h with
  | @opening _ _ _ d hallowed hcloser hls =>
      have hawaited : awaited stack c = d :: stack := by simp [awaited, hcloser]
      rw [hawaited]
      refine ⟨hallowed, hls, ?_⟩
      rcases closerOf_cases hcloser with ⟨rfl, rfl⟩ | ⟨rfl, rfl⟩ | ⟨rfl, rfl⟩
      · exact .inl ⟨rfl, rfl⟩
      · exact .inr (.inr ⟨by decide, by decide, by simp⟩)
      · exact .inr (.inr ⟨by decide, by decide, by simp⟩)
  | @closing stack _ _ hallowed hcloser hls =>
      have hnone : closerOf c = none := by
        rcases isCloser_cases hcloser with rfl | rfl | rfl <;> rfl
      have hawaited : awaited (c :: stack) c = stack := by simp [awaited, hnone, hcloser]
      rw [hawaited]
      refine ⟨hallowed, hls, ?_⟩
      rcases isCloser_cases hcloser with rfl | rfl | rfl
      · exact .inr (.inl ⟨rfl, rfl⟩)
      · exact .inr (.inr ⟨by decide, by decide, by simp⟩)
      · exact .inr (.inr ⟨by decide, by decide, by simp⟩)
  | other hallowed hopening hclosing hls =>
      have hawaited : awaited stack c = stack := by simp [awaited, hopening, hclosing]
      rw [hawaited]
      have hleft : c ≠ '(' := by rintro rfl; exact absurd hopening (by decide)
      have hright : c ≠ ')' := by rintro rfl; exact absurd hclosing (by decide)
      exact ⟨hallowed, hls, .inr (.inr ⟨hleft, hright, rfl⟩)⟩

/-- Nested brackets end the blocks that are awaited, and no others. -/
theorem Nests.afterBracket_eq {allowed : List Char → Char → Bool} {stack : List Char}
    {ls : List Lexeme} (h : Nests allowed stack ls) (depth : Nat) {text rest : List Char}
    (hlaid : Laid ls text rest) :
    afterBracket '\x7b' '\x7d' (depth + stack.count '\x7d') text =
      afterBracket '\x7b' '\x7d' depth rest := by
  induction h generalizing text with
  | nil => exact hlaid.afterBracket_nil depth
  | word w _ ih =>
      obtain ⟨run, after, hrun, rfl, hfits, hls⟩ := hlaid
      rw [afterBracket_blanks_append _ _ _ (by decide) (by decide) hrun,
        afterBracket_lexeme (by simp) (by simp) hfits]
      exact ih hls
  | literal l _ ih =>
      obtain ⟨run, after, hrun, rfl, hfits, hls⟩ := hlaid
      rw [afterBracket_blanks_append _ _ _ (by decide) (by decide) hrun,
        afterBracket_lexeme (by simp) (by simp) hfits]
      exact ih hls
  | @opening stack ls c d _ hcloser _ ih =>
      by_cases hbrace : c = '\x7b'
      · subst hbrace
        cases hcloser
        obtain ⟨after, hls, hopen⟩ := hlaid.afterBracket_opening (depth + stack.count '\x7d')
        have hcount : ('\x7d' :: stack).count '\x7d' = stack.count '\x7d' + 1 := by simp
        rw [hopen, ← ih hls, hcount, Nat.add_assoc]
      · obtain ⟨run, after, hrun, rfl, hfits, hls⟩ := hlaid
        have hclosing : c ≠ '\x7d' := by rintro rfl; cases hcloser
        have hd : d ≠ '\x7d' := by
          rcases closerOf_cases hcloser with ⟨_, rfl⟩ | ⟨_, rfl⟩ | ⟨rfl, _⟩
          · decide
          · decide
          · exact absurd rfl hbrace
        have hcount : (d :: stack).count '\x7d' = stack.count '\x7d' := by simp [hd]
        rw [afterBracket_blanks_append _ _ _ (by decide) (by decide) hrun,
          afterBracket_lexeme (by simpa using hbrace) (by simpa using hclosing) hfits, ← ih hls,
          hcount]
  | @closing stack ls c _ hcloser _ ih =>
      by_cases hbrace : c = '\x7d'
      · subst hbrace
        obtain ⟨after, hls, _, hclose⟩ := hlaid.afterBracket_closing
        have hcount : ('\x7d' :: stack).count '\x7d' = stack.count '\x7d' + 1 := by simp
        rw [hcount, ← Nat.add_assoc, hclose]
        exact ih hls
      · obtain ⟨run, after, hrun, rfl, hfits, hls⟩ := hlaid
        have hopening : c ≠ '\x7b' := by rintro rfl; exact absurd hcloser (by decide)
        have hcount : (c :: stack).count '\x7d' = stack.count '\x7d' := by simp [hbrace]
        rw [hcount, afterBracket_blanks_append _ _ _ (by decide) (by decide) hrun,
          afterBracket_lexeme (by simpa using hopening) (by simpa using hbrace) hfits]
        exact ih hls
  | @other stack ls c _ hopening hclosing _ ih =>
      obtain ⟨run, after, hrun, rfl, hfits, hls⟩ := hlaid
      have hleft : c ≠ '\x7b' := by rintro rfl; exact absurd hopening (by decide)
      have hright : c ≠ '\x7d' := by rintro rfl; exact absurd hclosing (by decide)
      rw [afterBracket_blanks_append _ _ _ (by decide) (by decide) hrun,
        afterBracket_lexeme (by simpa using hleft) (by simpa using hright) hfits]
      exact ih hls

/-- Lexemes with nested brackets leave a block as deep as it was. -/
theorem passes_of_nests {allowed : List Char → Char → Bool} {ls : List Lexeme}
    (h : nests allowed [] ls = true) : Passes ls := by
  intro depth text rest hlaid
  have hnests := Nests.of_nests h
  exact hnests.afterBracket_eq depth hlaid

/-! ## Inside an initializer -/

namespace OpenBrackets

/-- The open brackets for which closing ones are awaited. -/
def ofStack (stack : List Char) (angle : Nat) : OpenBrackets :=
  ⟨stack.count ']', stack.count '\x7d', stack.count ')', angle⟩

theorem isOutside_ofStack {d : Char} {stack : List Char} (hd : isCloser d = true) (angle : Nat) :
    (ofStack (d :: stack) angle).isOutside = false := by
  have hsquare : ((stack.count ']' : Int) + 1 = 0) = False := by simp; omega
  have hcurly : ((stack.count '\x7d' : Int) + 1 = 0) = False := by simp; omega
  have hround : ((stack.count ')' : Int) + 1 = 0) = False := by simp; omega
  rcases isCloser_cases hd with rfl | rfl | rfl <;> simp [isOutside, ofStack, *]

theorem after_opening {c d : Char} (h : closerOf c = some d) (stack : List Char) (angle : Nat) :
    (ofStack stack angle).after c = ofStack (d :: stack) angle := by
  rcases closerOf_cases h with ⟨rfl, rfl⟩ | ⟨rfl, rfl⟩ | ⟨rfl, rfl⟩ <;> simp [ofStack, after]

theorem after_closing {c : Char} (h : isCloser c = true) (stack : List Char) (angle : Nat) :
    (ofStack (c :: stack) angle).after c = ofStack stack angle := by
  rcases isCloser_cases h with rfl | rfl | rfl <;> simp [ofStack, after]

/-- A mark that is no bracket of these kinds changes at most the angle
brackets, and none are open if it is no `<`. -/
theorem after_other {c : Char} (hopening : closerOf c = Option.none) (hclosing : isCloser c = false)
    (stack : List Char) (angle : Nat) : ∃ angle', (ofStack stack angle).after c =
      ofStack stack angle' ∧ (c ≠ '<' → angle = 0 → angle' = 0) := by
  unfold after
  split
  case h_7 => exact ⟨angle + 1, rfl, fun h => absurd rfl h⟩
  case h_8 => exact ⟨angle - 1, rfl, fun _ h => by omega⟩
  case h_9 => exact ⟨angle, rfl, fun _ h => h⟩
  all_goals first
    | exact absurd hopening (by decide)
    | exact absurd hclosing (by decide)

theorem after_of_isPlain {c : Char} (h : isPlain c = true) (o : OpenBrackets) : o.after c = o := by
  unfold after
  split <;> first | rfl | exact absurd h (by decide)

end OpenBrackets

/-- A word or a literal does not end an initializer. -/
theorem initializerEnd_word (o : OpenBrackets) (w : Word) (after : List Char) :
    initializerEnd o (w.text.toList ++ after) = initializerEnd o after := by
  have hplain : ∀ cs : List Char, (∀ c ∈ cs, isPlain c = true) →
      initializerEnd o (cs ++ after) = initializerEnd o after := by
    intro cs hcs
    induction cs with
    | nil => rfl
    | cons c cs ih =>
        have hc := hcs c List.mem_cons_self
        obtain ⟨_, hquote, hslash, _, hends⟩ := isPlain_iff.1 hc
        have hsemicolon : c ≠ ';' := by rintro rfl; exact absurd hends (by decide)
        have hcomma : c ≠ ',' := by rintro rfl; exact absurd hc (by decide)
        rw [List.cons_append, initializerEnd_cons o hslash hquote (fun h => hsemicolon h.1)
          (fun h => hcomma h.1), OpenBrackets.after_of_isPlain hc]
        exact ih fun d hd => hcs d (List.mem_cons_of_mem c hd)
  exact hplain _ fun c hc => w.isPlain_of_mem hc

theorem initializerEnd_literal (o : OpenBrackets) (l : Literal) (after : List Char) :
    initializerEnd o ((Lexeme.literal l).chars ++ after) = initializerEnd o after := by
  have htext : (Lexeme.literal l).chars ++ after =
      l.quote :: (l.content ++ l.quote :: after) := by simp [Lexeme.chars]
  rw [htext, initializerEnd_quote o l.isQuote, afterQuote_append l.isQuote l.escaped]

/-- A mark that does not end an initializer is counted. -/
theorem initializerEnd_mark (o : OpenBrackets) {c : Char} {after : List Char}
    (hfits : (Lexeme.mark c).Fits after)
    (hends : c = ';' ∨ c = ',' → o.isOutside = false) :
    initializerEnd o (c :: after) = initializerEnd (o.after c) after := by
  obtain ⟨hmark, hcomment⟩ := hfits
  by_cases hslash : c = '/'
  · subst hslash
    obtain ⟨hline, hblock⟩ := hcomment rfl
    rw [initializerEnd_slash, afterSlash_eq_self hline hblock]
    rfl
  · apply initializerEnd_cons o hslash (not_isBlank_of_isMark hmark).2
    · rintro ⟨rfl, houtside⟩
      rw [hends (.inl rfl)] at houtside
      cases houtside
    · rintro ⟨rfl, houtside, _⟩
      rw [hends (.inr rfl)] at houtside
      cases houtside

/-- Nested brackets do not end an initializer if no separator stands
outside of them; without a `<` none counts as open. -/
theorem Nests.initializerEnd_eq {allowed : List Char → Char → Bool}
    (hsemicolon : allowed [] ';' = false) (hcomma : allowed [] ',' = false) {stack : List Char}
    {ls : List Lexeme} (h : Nests allowed stack ls) (hstack : ∀ d ∈ stack, isCloser d = true)
    (angle : Nat) {text rest : List Char} (hlaid : Laid ls text rest) :
    ∃ angle', initializerEnd (.ofStack stack angle) text = initializerEnd (.ofStack [] angle') rest ∧
      ((∀ stack, allowed stack '<' = false) → angle = 0 → angle' = 0) := by
  induction h generalizing text angle with
  | nil =>
      obtain ⟨run, hrun, rfl⟩ := hlaid
      exact ⟨angle, initializerEnd_blanks_append _ hrun rest, fun _ hangle => hangle⟩
  | word w _ ih =>
      obtain ⟨run, after, hrun, rfl, hfits, hls⟩ := hlaid
      rw [initializerEnd_blanks_append _ hrun, Lexeme.chars, initializerEnd_word]
      exact ih hstack angle hls
  | literal l _ ih =>
      obtain ⟨run, after, hrun, rfl, hfits, hls⟩ := hlaid
      rw [initializerEnd_blanks_append _ hrun, initializerEnd_literal]
      exact ih hstack angle hls
  | @opening stack ls c d _ hcloser _ ih =>
      obtain ⟨run, after, hrun, rfl, hfits, hls⟩ := hlaid
      have hends : c = ';' ∨ c = ',' → (OpenBrackets.ofStack stack angle).isOutside = false := by
        rintro (rfl | rfl) <;> cases hcloser
      have hd : isCloser d = true := by
        rcases closerOf_cases hcloser with ⟨_, rfl⟩ | ⟨_, rfl⟩ | ⟨_, rfl⟩ <;> decide
      rw [initializerEnd_blanks_append _ hrun, Lexeme.chars, List.singleton_append,
        initializerEnd_mark _ hfits hends, OpenBrackets.after_opening hcloser]
      apply ih _ angle hls
      intro e he
      rcases List.mem_cons.1 he with rfl | he
      · exact hd
      · exact hstack e he
  | @closing stack ls c _ hcloser _ ih =>
      obtain ⟨run, after, hrun, rfl, hfits, hls⟩ := hlaid
      have hends : c = ';' ∨ c = ',' →
          (OpenBrackets.ofStack (c :: stack) angle).isOutside = false := by
        rintro (rfl | rfl) <;> exact absurd hcloser (by decide)
      rw [initializerEnd_blanks_append _ hrun, Lexeme.chars, List.singleton_append,
        initializerEnd_mark _ hfits hends, OpenBrackets.after_closing hcloser]
      exact ih (fun e he => hstack e (List.mem_cons_of_mem c he)) angle hls
  | @other stack ls c hallowed hopening hclosing _ ih =>
      obtain ⟨run, after, hrun, rfl, hfits, hls⟩ := hlaid
      have hends : c = ';' ∨ c = ',' → (OpenBrackets.ofStack stack angle).isOutside = false := by
        cases stack with
        | nil =>
            rintro (rfl | rfl)
            · rw [hsemicolon] at hallowed; cases hallowed
            · rw [hcomma] at hallowed; cases hallowed
        | cons d stack => exact fun _ => OpenBrackets.isOutside_ofStack (hstack d List.mem_cons_self) angle
      obtain ⟨angle', hafter, hangle⟩ := OpenBrackets.after_other hopening hclosing stack angle
      obtain ⟨last, hend, hlast⟩ := ih hstack angle' hls
      refine ⟨last, ?_, fun hnone hzero => hlast hnone (hangle ?_ hzero)⟩
      · rw [initializerEnd_blanks_append _ hrun, Lexeme.chars, List.singleton_append,
          initializerEnd_mark _ hfits hends, hafter, hend]
      · rintro rfl
        rw [hnone stack] at hallowed
        cases hallowed

end JavaOutline
