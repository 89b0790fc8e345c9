import JavaOutline.Proofs.Layout.Passing
import JavaOutline.Proofs.Lexical.Closed
import JavaOutline.Proofs.Lexical.Regions

/-!
# JavaOutline.Proofs.Layout.Values

The values of variables, as any expression after `=` may be written: with
comments and literals of any content, with brackets that are closed in order,
and with commas inside of brackets or type arguments.  An angle bracket may
open type arguments or compare, and the readers do not tell the one from the
other: they count (`openAngles`).

An initializer goes on over such a value, and at the separator after it as many
angle brackets are open as were counted (`Value.initializerEnd_append`).
-/

namespace JavaOutline

open Text

/-! ## Angle brackets -/

/-- How many angle brackets count as open after one more character: a closing
one that closes nothing does not count. -/
def anglesAfter (n : Nat) (c : Char) : Nat :=
  if c = '<' then n + 1 else if c = '>' then n - 1 else n

/-- How many angle brackets count as open after the code of a text, if `n` do
before it. -/
def openAngles (n : Nat) (text : List Char) : Nat := (code text).foldl anglesAfter n

/-! ## Expressions -/

/-- The kinds of brackets in type arguments. -/
def argumentKinds : List (Char × Char) := ('<', '>') :: bracketKinds

/-- Code whose brackets of the kinds `kinds` are closed in order. -/
inductive Paired (kinds : List (Char × Char)) : List Char → Prop
  | nil : Paired kinds []
  | other {c : Char} {cs : List Char} (hkinds : ∀ k ∈ kinds, c ≠ k.1 ∧ c ≠ k.2)
      (h : Paired kinds cs) : Paired kinds (c :: cs)
  | group {k : Char × Char} {inner cs : List Char} (hk : k ∈ kinds) (hinner : Paired kinds inner)
      (h : Paired kinds cs) : Paired kinds (k.1 :: (inner ++ k.2 :: cs))

/-- The code of an expression: brackets are closed in order, and commas stand
inside of them or in type arguments.  Angle brackets elsewhere are those of
operators. -/
inductive ValueCode : List Char → Prop
  | nil : ValueCode []
  | plain {c : Char} {cs : List Char} (hseparator : c ≠ ',' ∧ c ≠ ';')
      (hkinds : ∀ k ∈ bracketKinds, c ≠ k.1 ∧ c ≠ k.2) (h : ValueCode cs) : ValueCode (c :: cs)
  | group {k : Char × Char} {inner cs : List Char} (hk : k ∈ bracketKinds)
      (hinner : Paired bracketKinds inner) (h : ValueCode cs) :
      ValueCode (k.1 :: (inner ++ k.2 :: cs))
  | arguments {inner cs : List Char} (hinner : Paired argumentKinds inner)
      (hsemicolon : ';' ∉ inner) (h : ValueCode cs) : ValueCode ('<' :: (inner ++ '>' :: cs))

theorem Paired.other_append {kinds : List (Char × Char)} {run cs : List Char}
    (hrun : ∀ c ∈ run, ∀ k ∈ kinds, c ≠ k.1 ∧ c ≠ k.2) (h : Paired kinds cs) :
    Paired kinds (run ++ cs) := by
  induction run with
  | nil => exact h
  | cons c run ih =>
      exact .other (hrun c List.mem_cons_self)
        (ih fun d hd => hrun d (List.mem_cons_of_mem c hd))

theorem ValueCode.plain_append {run cs : List Char} (hrun : ∀ c ∈ run, (c ≠ ',' ∧ c ≠ ';') ∧
    ∀ k ∈ bracketKinds, c ≠ k.1 ∧ c ≠ k.2) (h : ValueCode cs) : ValueCode (run ++ cs) := by
  induction run with
  | nil => exact h
  | cons c run ih =>
      obtain ⟨hseparator, hkinds⟩ := hrun c List.mem_cons_self
      exact .plain hseparator hkinds (ih fun d hd => hrun d (List.mem_cons_of_mem c hd))

/-- An expression as it is written: its comments and literals end in it. -/
structure Value where
  text : List Char
  closed : Closed [] text
  formed : ValueCode (code text)

/-! ## Going on over code -/

namespace OpenBrackets

/-- Whether a character separates declarators where it stands. -/
def endsAt (o : OpenBrackets) (c : Char) : Prop :=
  o.isOutside = true ∧ (c = ';' ∨ c = ',' ∧ o.angle = 0)

/-- An initializer goes on over code characters, none of which separates
declarators, and counts the brackets among them. -/
inductive Over : OpenBrackets → List Char → OpenBrackets → Prop
  | nil (o : OpenBrackets) : Over o [] o
  | cons {o o' : OpenBrackets} {c : Char} {cs : List Char} (hends : ¬ o.endsAt c)
      (h : Over (o.after c) cs o') : Over o (c :: cs) o'

theorem Over.append {o mid o' : OpenBrackets} {xs ys : List Char} (hxs : Over o xs mid)
    (hys : Over mid ys o') : Over o (xs ++ ys) o' := by
  induction hxs with
  | nil => exact hys
  | cons hends _ ih => exact .cons hends (ih hys)

theorem angle_after (o : OpenBrackets) (c : Char) : (o.after c).angle = anglesAfter o.angle c := by
  unfold after
  split <;> simp_all [anglesAfter]

/-- Angle brackets count the same wherever they stand. -/
theorem Over.angle_eq {o o' : OpenBrackets} {cs : List Char} (h : Over o cs o') :
    o'.angle = cs.foldl anglesAfter o.angle := by
  induction h with
  | nil => rfl
  | cons _ _ ih => rw [ih, angle_after, List.foldl_cons]

/-- A character that is no bracket is not counted. -/
theorem after_of_not_bracket {c : Char} (h : ∀ k ∈ argumentKinds, c ≠ k.1 ∧ c ≠ k.2)
    (o : OpenBrackets) : o.after c = o := by
  unfold after
  split <;> first | rfl | exact absurd h (by decide)

/-- Inside of brackets nothing separates declarators. -/
theorem not_endsAt_of_isCloser {d : Char} (hd : isCloser d = true) (stack : List Char)
    (angle : Nat) (c : Char) : ¬ (ofStack (d :: stack) angle).endsAt c := by
  rintro ⟨houtside, _⟩
  rw [isOutside_ofStack hd] at houtside
  cases houtside

end OpenBrackets

theorem bracketKinds_closerOf : ∀ k ∈ bracketKinds, closerOf k.1 = some k.2 ∧
    isCloser k.2 = true ∧ ∀ c ∈ [k.1, k.2], c ≠ ',' ∧ c ≠ ';' := by decide

/-- What is no bracket of these kinds neither opens nor closes one. -/
theorem not_bracket_of_kinds {c : Char} (h : ∀ k ∈ bracketKinds, c ≠ k.1 ∧ c ≠ k.2) :
    closerOf c = none ∧ isCloser c = false := by
  constructor
  · cases hcloser : closerOf c with
    | none => rfl
    | some d =>
        rcases closerOf_cases hcloser with ⟨rfl, _⟩ | ⟨rfl, _⟩ | ⟨rfl, _⟩ <;>
          exact absurd h (by decide)
  · cases hcloser : isCloser c with
    | false => rfl
    | true =>
        rcases isCloser_cases hcloser with rfl | rfl | rfl <;> exact absurd h (by decide)

namespace OpenBrackets

/-- What goes on inside of brackets goes on with the brackets around it. -/
theorem Over.group {k : Char × Char} (hk : k ∈ bracketKinds) {stack inner cs : List Char}
    {n m : Nat} {o : OpenBrackets}
    (hinner : (ofStack (k.2 :: stack) n).Over inner (ofStack (k.2 :: stack) m))
    (h : (ofStack stack m).Over cs o) :
    (ofStack stack n).Over (k.1 :: (inner ++ k.2 :: cs)) o := by
  obtain ⟨hopening, hclosing, hplain⟩ := bracketKinds_closerOf k hk
  have hnot : ∀ (u : OpenBrackets), ∀ c ∈ [k.1, k.2], ¬ u.endsAt c := by
    rintro u c hc ⟨_, hsemicolon | ⟨hcomma, _⟩⟩
    · exact (hplain c hc).2 hsemicolon
    · exact (hplain c hc).1 hcomma
  refine .cons (hnot _ _ (by simp)) ?_
  rw [after_opening hopening]
  refine hinner.append (.cons (hnot _ _ (by simp)) ?_)
  rw [after_closing hclosing]
  exact h

end OpenBrackets

open OpenBrackets

/-- Inside of brackets everything is gone over. -/
theorem Paired.over {cs : List Char} (h : Paired bracketKinds cs) {stack : List Char} (n : Nat)
    (hinside : ∀ (m : Nat) (c : Char), ¬ (ofStack stack m).endsAt c) :
    ∃ m, (ofStack stack n).Over cs (ofStack stack m) := by
  induction h generalizing stack n with
  | nil => exact ⟨n, .nil _⟩
  | other hkinds _ ih =>
      obtain ⟨hopening, hclosing⟩ := not_bracket_of_kinds hkinds
      obtain ⟨angle, hafter, _⟩ := after_other hopening hclosing stack n
      obtain ⟨m, hrest⟩ := ih angle hinside
      exact ⟨m, .cons (hinside n _) (hafter ▸ hrest)⟩
  | @group k inner cs hk _ _ ihinner ih =>
      obtain ⟨_, hcloser, _⟩ := bracketKinds_closerOf k hk
      obtain ⟨angle, hinner⟩ := ihinner n (not_endsAt_of_isCloser hcloser stack)
      obtain ⟨m, hrest⟩ := ih angle hinside
      exact ⟨m, .group hk hinner hrest⟩

/-- In type arguments no angle bracket is closed that was open before. -/
theorem Paired.over_arguments {cs : List Char} (h : Paired argumentKinds cs) {stack : List Char}
    {n : Nat} (hinside : ∀ m, n ≤ m → ∀ c ∈ cs, ¬ (ofStack stack m).endsAt c) :
    (ofStack stack n).Over cs (ofStack stack n) := by
  induction h generalizing stack n with
  | nil => exact .nil _
  | @other c cs hkinds _ ih =>
      refine .cons (hinside n (Nat.le_refl n) c List.mem_cons_self) ?_
      rw [after_of_not_bracket hkinds]
      exact ih fun m hm d hd => hinside m hm d (List.mem_cons_of_mem c hd)
  | @group k inner cs hk _ _ ihinner ih =>
      have hrest := ih fun m hm d hd => hinside m hm d (by simp [hd])
      rcases List.mem_cons.1 hk with rfl | hk
      · have hinner : (ofStack stack (n + 1)).Over inner (ofStack stack (n + 1)) :=
          ihinner fun m hm d hd => hinside m (by omega) d (by simp [hd])
        exact .cons (hinside n (Nat.le_refl n) _ (by simp))
          (hinner.append (.cons (hinside (n + 1) (by omega) _ (by simp)) hrest))
      · obtain ⟨_, hcloser, _⟩ := bracketKinds_closerOf k hk
        exact .group hk (ihinner fun m _ d _ => not_endsAt_of_isCloser hcloser stack m d) hrest

/-- Over the code of an expression an initializer goes on. -/
theorem ValueCode.over {cs : List Char} (h : ValueCode cs) (n : Nat) :
    (ofStack [] n).Over cs (ofStack [] (cs.foldl anglesAfter n)) := by
  obtain ⟨m, hover⟩ : ∃ m, (ofStack [] n).Over cs (ofStack [] m) := by
    induction h generalizing n with
    | nil => exact ⟨n, .nil _⟩
    | @plain c cs hseparator hkinds _ ih =>
        obtain ⟨hopening, hclosing⟩ := not_bracket_of_kinds hkinds
        obtain ⟨angle, hafter, _⟩ := after_other hopening hclosing [] n
        obtain ⟨m, hrest⟩ := ih angle
        refine ⟨m, .cons ?_ (hafter ▸ hrest)⟩
        rintro ⟨_, hsemicolon | ⟨hcomma, _⟩⟩
        · exact hseparator.2 hsemicolon
        · exact hseparator.1 hcomma
    | @group k inner cs hk hinner _ ih =>
        obtain ⟨_, hcloser, _⟩ := bracketKinds_closerOf k hk
        obtain ⟨angle, hover⟩ := hinner.over n (not_endsAt_of_isCloser hcloser [])
        obtain ⟨m, hrest⟩ := ih angle
        exact ⟨m, .group hk hover hrest⟩
    | @arguments inner cs hinner hsemicolon _ ih =>
        obtain ⟨m, hrest⟩ := ih n
        -- At least the bracket of the arguments is open at every comma.
        have hinside : ∀ m, n + 1 ≤ m → ∀ c ∈ inner, ¬ (ofStack [] m).endsAt c := by
          rintro m hm c hc ⟨_, rfl | ⟨_, hzero⟩⟩
          · exact hsemicolon hc
          · have hangle : m = 0 := hzero
            omega
        have hangle : ∀ (u : OpenBrackets), ∀ c ∈ ['<', '>'], ¬ u.endsAt c := by
          rintro u c hc ⟨_, rfl | ⟨rfl, _⟩⟩ <;> exact absurd hc (by decide)
        exact ⟨m, .cons (hangle _ _ (by simp)) ((hinner.over_arguments hinside).append
          (.cons (hangle _ _ (by simp)) hrest))⟩
  have hangle : m = cs.foldl anglesAfter n := hover.angle_eq
  rwa [hangle] at hover

/-! ## Going on over text -/

/-- An initializer that goes on over the code of a text goes on over the text. -/
theorem Closed.initializerEnd_append {text : List Char} (h : Closed [] text) {o o' : OpenBrackets}
    (hover : o.Over (JavaOutline.code text) o') {c : Char} (hline : c ≠ '/') (hblock : c ≠ '*')
    (rest : List Char) :
    initializerEnd o (text ++ c :: rest) = initializerEnd o' (c :: rest) := by
  induction h generalizing o with
  | nil =>
      cases hover
      rfl
  | @code d text hslash hquote _ _ ih =>
      rw [code_cons hquote (fun heq => absurd heq hslash)] at hover
      cases hover with
      | cons hends hover =>
          rw [List.cons_append, initializerEnd_cons o hslash hquote
            (fun hsemicolon => hends ⟨hsemicolon.2, .inl hsemicolon.1⟩)
            (fun hcomma => hends ⟨hcomma.2.1, .inr ⟨hcomma.1, hcomma.2.2⟩⟩)]
          exact ih hover
  | @slash text hcomment hcomment' _ ih =>
      rw [code_cons (c := '/') (by decide) (fun _ => ⟨hcomment, hcomment'⟩)] at hover
      have hself : afterSlash (text ++ c :: rest) = text ++ c :: rest := by
        cases text with
        | nil => exact afterSlash_eq_self (by simpa using hline) (by simpa using hblock)
        | cons d text => exact afterSlash_eq_self hcomment hcomment'
      cases hover with
      | cons _ hover =>
          rw [List.cons_append, initializerEnd_slash, hself]
          exact ih hover
  | literal hquote hcontent _ ih =>
      rw [code_literal hquote hcontent] at hover
      rw [List.cons_append, List.append_assoc, List.cons_append, initializerEnd_quote _ hquote,
        afterQuote_append hquote hcontent]
      exact ih hover
  | lineComment hcontent _ ih =>
      rw [code_lineComment hcontent] at hover
      rw [List.cons_append, List.cons_append, List.append_assoc, List.cons_append,
        initializerEnd_slash, afterSlash_lineComment hcontent]
      exact ih hover
  | blockComment hcontent _ ih =>
      rw [code_blockComment hcontent] at hover
      rw [List.cons_append, List.cons_append, List.append_assoc, List.cons_append,
        List.cons_append, initializerEnd_slash, afterSlash_blockComment hcontent]
      exact ih hover
  | block hk => cases hk

/-- **A value is passed over up to the separator after it**, and its angle
brackets are counted. -/
theorem Value.initializerEnd_append (e : Value) (n : Nat) {separator : Char}
    (hseparator : separator = ',' ∨ separator = ';') (rest : List Char) :
    initializerEnd (ofStack [] n) (e.text ++ separator :: rest) =
      initializerEnd (ofStack [] (openAngles n e.text)) (separator :: rest) := by
  have hplain : separator ≠ '/' ∧ separator ≠ '*' := by
    rcases hseparator with rfl | rfl <;> decide
  exact e.closed.initializerEnd_append (e.formed.over n) hplain.1 hplain.2 rest

/-- Outside of brackets a semicolon ends an initializer. -/
theorem initializerEnd_semicolon (n : Nat) (rest : List Char) :
    initializerEnd (ofStack [] n) (';' :: rest) = .semicolon rest := by
  rw [initializerEnd, if_neg (by decide), if_neg (by decide), if_pos ⟨rfl, rfl⟩]

/-- Outside of brackets a comma ends an initializer if no angle bracket counts as
open. -/
theorem initializerEnd_comma (rest : List Char) :
    initializerEnd (ofStack [] 0) (',' :: rest) = .comma (',' :: rest) := by
  rw [initializerEnd, if_neg (by decide), if_neg (by decide), if_neg (by simp),
    if_pos ⟨rfl, rfl, rfl⟩]

/-- Where an angle bracket counts as open, a comma is passed over. -/
theorem initializerEnd_comma_open (n : Nat) (rest : List Char) :
    initializerEnd (ofStack [] (n + 1)) (',' :: rest) =
      initializerEnd (ofStack [] (n + 1)) rest := by
  rw [initializerEnd_cons _ (by decide) (by decide) (by simp) (by simp [ofStack])]
  rfl

end JavaOutline
