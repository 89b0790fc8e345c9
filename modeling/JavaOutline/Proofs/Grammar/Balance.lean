import JavaOutline.Proofs.Grammar.Bodies

/-!
# JavaOutline.Proofs.Grammar.Balance

What is written in the grammar has its braces closed and is made of proper
marks, part by part (`Members.balanced`).  So a body can be passed over, and
one blank between any two lexemes lays it out
(`CompilationUnit.laid_spaced`).
-/

namespace JavaOutline

/-- Lexemes that can be passed over, and whose marks are proper ones. -/
structure Balanced (ls : List Lexeme) : Prop where
  passes : Passes ls
  marks : ∀ c, Lexeme.mark c ∈ ls → isMark c = true

namespace Balanced

variable {xs ys : List Lexeme}

theorem nil : Balanced [] := ⟨.nil, by simp⟩

theorem word (w : Word) (h : Balanced xs) : Balanced (.word w :: xs) :=
  ⟨.cons (by simp) (by simp) h.passes, fun c hc => h.marks c (by simpa using hc)⟩

theorem literal (q : Literal) (h : Balanced xs) : Balanced (.literal q :: xs) :=
  ⟨.cons (by simp) (by simp) h.passes, fun c hc => h.marks c (by simpa using hc)⟩

theorem mark {c : Char} (hc : c ∈ innerMarks) (h : Balanced xs) : Balanced (.mark c :: xs) := by
  have hkinds : ∀ d ∈ innerMarks, isMark d = true ∧ d ≠ '\x7b' ∧ d ≠ '\x7d' := by decide
  obtain ⟨hmark, hopening, hclosing⟩ := hkinds c hc
  refine ⟨.cons (by simpa using hopening) (by simpa using hclosing) h.passes, fun d hd => ?_⟩
  rcases List.mem_cons.1 hd with heq | hd
  · cases heq
    exact hmark
  · exact h.marks d hd

theorem append (hxs : Balanced xs) (hys : Balanced ys) : Balanced (xs ++ ys) := by
  refine ⟨hxs.passes.append hys.passes, fun c hc => ?_⟩
  rcases List.mem_append.1 hc with hc | hc
  · exact hxs.marks c hc
  · exact hys.marks c hc

theorem block (hxs : Balanced xs) (hys : Balanced ys) :
    Balanced (.mark '\x7b' :: (xs ++ .mark '\x7d' :: ys)) := by
  refine ⟨.block hxs.passes hys.passes, fun c hc => ?_⟩
  simp only [List.mem_cons, List.mem_append, Lexeme.mark.injEq] at hc
  rcases hc with rfl | hc | rfl | hc
  · decide
  · exact hxs.marks c hc
  · decide
  · exact hys.marks c hc

/-- What has its braces closed does not matter in front of a text. -/
theorem afterBracket_eq (hxs : Balanced xs) (hys : Balanced ys) {x y start : List Char}
    (hx : Laid xs x start) (hy : Laid ys y start) (depth : Nat) :
    afterBracket '\x7b' '\x7d' depth x = afterBracket '\x7b' '\x7d' depth y :=
  (hxs.passes depth _ _ hx).trans (hys.passes depth _ _ hy).symm

theorem flatMap {α : Type} {f : α → List Lexeme} {as : List α} (h : ∀ a ∈ as, Balanced (f a)) :
    Balanced (as.flatMap f) := by
  induction as with
  | nil => exact .nil
  | cons a as ih =>
      rw [List.flatMap_cons]
      exact (h a List.mem_cons_self).append (ih fun b hb => h b (List.mem_cons_of_mem a hb))

end Balanced

/-! ## Types -/

theorem balanced_dotted (ws : List Word) : Balanced (dotted ws) := by
  induction ws with
  | nil => exact .nil
  | cons w ws ih => exact .mark (by decide) (.word w ih)

theorem AngleMark.mem_innerMarks {c : Char} {depth d : Nat} (h : AngleMark c depth d) :
    c ∈ innerMarks := by
  have hinner : ∀ e ∈ ['<', '>', '.', ',', '?', '[', ']'], e ∈ innerMarks := by decide
  exact hinner c h.mem

theorem balanced_insideAngles {depth : Nat} {named : Bool} {ls : List Lexeme}
    (h : insideAngles depth named ls = true) : Balanced ls := by
  induction ls generalizing depth named with
  | nil => exact .nil
  | cons l ls ih =>
      cases l with
      | literal q => simp [insideAngles] at h
      | word w =>
          simp only [insideAngles, Bool.and_eq_true] at h
          exact .word w (ih h.2)
      | mark c =>
          obtain ⟨d, hc, hls⟩ := insideAngles_mark h
          exact .mark hc.mem_innerMarks (ih hls)

theorem ClassType.balanced (t : ClassType) : Balanced t.lexemes := by
  have hname := balanced_dotted t.name.more
  cases harguments : t.arguments with
  | none => simpa [ClassType.lexemes, ClassType.tail, harguments, argumentLexemes]
      using hname.word t.name.first.toWord
  | some arguments =>
      have hinside := (balanced_insideAngles arguments.inside).append
        (.mark (c := '>') (by decide) .nil)
      have hall := (hname.append (.mark (c := '<') (by decide) hinside)).word t.name.first.toWord
      simpa [ClassType.lexemes, ClassType.tail, harguments, argumentLexemes] using hall

theorem balanced_arrayBrackets (n : Nat) : Balanced (arrayBrackets n) := by
  induction n with
  | zero => exact .nil
  | succ n ih => exact .mark (by decide) (.mark (by decide) ih)

theorem WrittenType.balanced (t : WrittenType) : Balanced t.lexemes :=
  t.toClassType.balanced.append (balanced_arrayBrackets t.dimensions)

theorem balanced_modifiers (ms : List Modifier) : Balanced (modifierLexemes ms) := by
  induction ms with
  | nil => exact .nil
  | cons m ms ih => exact .word m.word ih

/-! ## Variables -/

theorem nests_allowed {allowed : List Char → Char → Bool} {stack : List Char} {ls : List Lexeme}
    (h : Nests allowed stack ls) {c : Char} (hc : Lexeme.mark c ∈ ls) :
    ∃ stack, allowed stack c = true := by
  induction h with
  | nil => cases hc
  | word w _ ih => exact ih (by simpa using hc)
  | literal l _ ih => exact ih (by simpa using hc)
  | opening hallowed _ _ ih =>
      rcases List.mem_cons.1 hc with heq | hc
      · cases heq; exact ⟨_, hallowed⟩
      · exact ih hc
  | closing hallowed _ _ ih =>
      rcases List.mem_cons.1 hc with heq | hc
      · cases heq; exact ⟨_, hallowed⟩
      · exact ih hc
  | other hallowed _ _ _ ih =>
      rcases List.mem_cons.1 hc with heq | hc
      · cases heq; exact ⟨_, hallowed⟩
      · exact ih hc

theorem balanced_value (value : Option Initializer) : Balanced (valueLexemes value) := by
  cases value with
  | none => exact .nil
  | some e =>
      have hmarks : ∀ c, Lexeme.mark c ∈ e.lexemes → isMark c = true := by
        intro c hc
        obtain ⟨stack, hallowed⟩ := nests_allowed (Nests.of_nests e.nests) hc
        simp only [allowedInInitializer, Bool.and_eq_true] at hallowed
        exact hallowed.1.1
      exact .mark (by decide) ⟨e.passes, hmarks⟩

theorem VariableDeclaration.balanced (d : VariableDeclaration) : Balanced d.lexemes := by
  have hmore : ∀ ds : List Declarator, Balanced (declaratorLexemes ds) := by
    intro ds
    induction ds with
    | nil => exact .nil
    | cons d ds ih =>
        exact .mark (by decide) (.word d.name.toWord ((balanced_value d.value).append ih))
  have hnames := (balanced_value d.first.value).append
    ((hmore d.more).append (.mark (c := ';') (by decide) .nil))
  exact (balanced_modifiers d.modifiers).append
    (d.type.balanced.append (hnames.word d.first.name.toWord))

/-! ## Methods -/

theorem balanced_parameters (ps : List Parameter) : Balanced (parameterLexemes ps) := by
  have htype : ∀ p : Parameter, Balanced p.typeLexemes := by
    intro p
    rw [Parameter.typeLexemes]
    split
    · exact p.type.balanced.word finalWord
    · exact p.type.balanced
  induction ps with
  | nil => exact .nil
  | cons p ps ih =>
      cases ps with
      | nil => exact (htype p).append (.word p.name.toWord .nil)
      | cons q ps => exact (htype p).append (.word p.name.toWord (.mark (by decide) ih))

theorem MethodHeader.balanced (h : MethodHeader) : Balanced h.lexemes := by
  have hname : Balanced [.word h.name.toWord] := .word h.name.toWord .nil
  have htype : Balanced ((h.type.map WrittenType.lexemes).getD []) := by
    cases h.type with
    | none => exact .nil
    | some t => exact t.balanced
  have hparameters := (balanced_parameters h.parameters).append
    (.mark (c := ')') (by decide) .nil)
  exact ((balanced_modifiers h.modifiers).append (htype.append hname)).append
    (.mark (by decide) hparameters)

theorem balanced_locals (ds : List LocalDeclaration) : Balanced (localLexemes ds) :=
  .flatMap fun d _ => d.balanced

theorem MethodDeclaration.balanced (m : MethodDeclaration) : Balanced m.lexemes := by
  unfold MethodDeclaration.lexemes
  split
  · exact m.header.balanced.append (.mark (by decide) .nil)
  · next ds _ => exact m.header.balanced.append (.block (balanced_locals ds) .nil)

/-! ## Bodies of types -/

theorem balanced_classTypes (t : ClassType) (ts : List ClassType) :
    Balanced (classTypeLexemes t ts) := by
  have hmore : Balanced (moreClassTypes ts) := by
    induction ts with
    | nil => exact .nil
    | cons t ts ih => exact .mark (by decide) (t.balanced.append ih)
  exact t.balanced.append hmore

theorem balanced_interfaces (interfaces : List ClassType) :
    Balanced (interfaceLexemes interfaces) := by
  cases interfaces with
  | nil => exact .nil
  | cons t ts => exact .word implementsWord (balanced_classTypes t ts)

theorem TypeHeading.balanced (h : TypeHeading) : Balanced h.lexemes := by
  have hsuper : Balanced (superLexemes h.superType) := by
    cases h.superType with
    | none => exact .nil
    | some t => exact t.balanced.word extendsWord
  have hrest := hsuper.append (balanced_interfaces h.interfaces)
  exact (balanced_modifiers h.modifiers).append (.word h.kind.word (.word h.name.toWord hrest))

theorem Constants.balanced (c : Constants) (last : Bool) : Balanced (c.lexemes last) := by
  have hnames : Balanced c.nameLexemes := by
    unfold Constants.nameLexemes
    split
    · exact .nil
    · next n ns _ =>
        exact .word n.toWord (.flatMap fun m _ => .mark (by decide) (.word m.toWord .nil))
  unfold Constants.lexemes
  split
  · exact hnames.append (.mark (by decide) .nil)
  · exact hnames.append .nil

theorem Members.balanced (ms : Members) : Balanced ms.lexemes := by
  induction ms with
  | nil => exact .nil
  | field d next ih => exact d.balanced.append ih
  | method m next ih => exact m.balanced.append ih
  | type h constants inside next hinside hnext =>
      have hbody := (constants.balanced inside.isNil).append hinside
      exact h.balanced.append (.block hbody hnext)

theorem balanced_clause (keyword : Word) (q : QualifiedName) :
    Balanced (clauseLexemes keyword q) := by
  have hname := (balanced_dotted q.more).word q.first.toWord
  exact .word keyword (hname.append (.mark (by decide) .nil))

/-- A text is laid out with one blank between any two lexemes. -/
theorem CompilationUnit.laid_spaced (u : CompilationUnit) :
    Laid u.lexemes (spaced u.lexemes) [] := by
  have hpackage : Balanced (u.package.toList.flatMap (clauseLexemes packageWord)) :=
    .flatMap fun q _ => balanced_clause packageWord q
  have himports : Balanced (u.imports.flatMap (clauseLexemes importWord)) :=
    .flatMap fun q _ => balanced_clause importWord q
  have hall := hpackage.append (himports.append (Members.ofTypes u.types).balanced)
  exact JavaOutline.laid_spaced hall.marks

end JavaOutline
