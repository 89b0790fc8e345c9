import JavaOutline.Declaration.Reading
import JavaOutline.Proofs.Grammar.Types

/-!
# JavaOutline.Proofs.Grammar.Modifiers

Modifiers as they are written, and what the readers make of the tokens of a
declaration: modifiers count for what follows
(`Reading.ofTokensAfter_modifiers`), and a token that the readers do not
act on begins a member (`Reading.ofTokensAfter_member`).
-/

namespace JavaOutline

/-- The modifiers of types and members. -/
def modifierWords : List String :=
  ["public", "private", "protected", "static", "final", "abstract", "default", "native",
    "strictfp", "synchronized", "transient", "volatile"]

/-- A modifier of a type or a member. -/
structure Modifier where
  text : String
  isModifier : modifierWords.contains text = true

/-- A modifier as a word. -/
def Modifier.word (m : Modifier) : Word where
  text := m.text
  isWord := by
    have hall : ∀ w ∈ modifierWords, JavaOutline.isWord w = true := by decide
    exact hall m.text (List.contains_iff_mem.1 m.isModifier)

/-- The lexemes of modifiers. -/
def modifierLexemes (ms : List Modifier) : List Lexeme := ms.map fun m => .word m.word

/-- What one more modifier says: the last access level counts. -/
def Modifiers.and (m : Modifiers) (word : String) : Modifiers :=
  match Access.ofKeyword? word with
  | some access => { m with access }
  | none =>
    { m with
      isStatic := m.isStatic || word == "static"
      isFinal := m.isFinal || word == "final" }

/-- What modifiers say. -/
def modifiersOf (ms : List Modifier) : Modifiers :=
  ms.foldl (fun m modifier => m.and modifier.text) .absent

namespace Reading

/-- A modifier is taken, except that an inert word which begins a statement in
a method body makes it say nothing. -/
theorem ofTokensAfter_modifier (level : Level) (x : Modifier) (m : Modifiers) (first : Bool)
    (tokens : List String) : ofTokensAfter level m first (x.text :: tokens) =
      if level = .methodBody ∧ first = true ∧ isInert x.text = true then nothing
      else ofTokensAfter level (m.and x.text) false tokens := by
  have hx := List.contains_iff_mem.1 x.isModifier
  generalize x.text = word at hx
  simp only [modifierWords, List.mem_cons, List.not_mem_nil, or_false] at hx
  rw [ofTokensAfter]
  rcases hx with rfl | rfl | rfl | rfl | rfl | rfl | rfl | rfl | rfl | rfl | rfl | rfl
  all_goals
    simp [Access.ofKeyword?, TypeKind.ofKeyword?, Modifiers.and, isInert, inertWords]

/-- Modifiers are taken one after the other, except that an inert word
which begins a statement in a method body makes it say nothing. -/
theorem ofTokensAfter_modifiers (level : Level) (ms : List Modifier) (m : Modifiers)
    (first : Bool) (tokens : List String)
    (hinert : level = .methodBody → first = true → ∀ x ∈ ms.head?, isInert x.text = false) :
    ofTokensAfter level m first (ms.map Modifier.text ++ tokens) =
      ofTokensAfter level (ms.foldl (fun m modifier => m.and modifier.text) m)
        (first && ms.isEmpty) tokens := by
  induction ms generalizing m first with
  | nil => simp
  | cons x ms ih =>
      have hkept : ¬ (level = .methodBody ∧ first = true ∧ isInert x.text = true) := by
        rintro ⟨hlevel, hfirst, hword⟩
        rw [hinert hlevel hfirst x rfl] at hword
        cases hword
      rw [List.map_cons, List.cons_append, ofTokensAfter_modifier, if_neg hkept, ih _ _ (by simp)]
      simp

/-- What says the same after all modifiers says the same after more of them. -/
theorem ofTokensAfter_modifiers_congr {level : Level} {xs ys : List String}
    (h : ∀ m first, ofTokensAfter level m first xs = ofTokensAfter level m first ys)
    (ms : List Modifier) (m : Modifiers) (first : Bool) :
    ofTokensAfter level m first (ms.map Modifier.text ++ xs) =
      ofTokensAfter level m first (ms.map Modifier.text ++ ys) := by
  induction ms generalizing m first with
  | nil => exact h m first
  | cons x ms ih =>
      rw [List.map_cons, List.cons_append, List.cons_append, ofTokensAfter_modifier,
        ofTokensAfter_modifier, ih]

/-- The keyword of a type makes the rest its header. -/
theorem ofTokensAfter_kind (level : Level) (m : Modifiers) (first : Bool) (kind : TypeKind)
    (tokens : List String) : ofTokensAfter level m first (kind.keyword :: tokens) =
      declaring (((TypeHeader.ofTokens? kind tokens).map Declaration.type).getD .nothing) := by
  rw [ofTokensAfter]
  cases kind <;> simp [TypeKind.keyword, TypeKind.ofKeyword?, Access.ofKeyword?]

/-- A token that the readers do not act on begins a member. -/
theorem ofTokensAfter_member {level : Level} {m : Modifiers} {first : Bool} {token : String}
    {tokens : List String} (hfree : reservedWords.contains token = false)
    (hangle : token.toList.head? ≠ some '<') (hlevel : level ≠ .file) :
    ofTokensAfter level m first (token :: tokens) =
      declaring (member level m first (token :: tokens)) := by
  have hnot : ∀ word ∈ reservedWords, token ≠ word := by
    rintro word hword rfl
    rw [List.contains_eq_mem, decide_eq_false_iff_not] at hfree
    exact hfree hword
  have haccess : Access.ofKeyword? token = none := by
    unfold Access.ofKeyword?
    split
    · exact absurd rfl (hnot "public" (by decide))
    · exact absurd rfl (hnot "private" (by decide))
    · exact absurd rfl (hnot "protected" (by decide))
    · rfl
  have hkind : TypeKind.ofKeyword? token = none := by
    unfold TypeKind.ofKeyword?
    split
    · exact absurd rfl (hnot "class" (by decide))
    · exact absurd rfl (hnot "interface" (by decide))
    · exact absurd rfl (hnot "enum" (by decide))
    · rfl
  have hinert : isInert token = false := by
    cases h : isInert token with
    | false => rfl
    | true =>
        rw [isInert, List.contains_iff_mem] at h
        exact absurd rfl (hnot token (List.mem_append_right _ h))
  rw [ofTokensAfter, haccess, hkind]
  simp [hnot "static" (by decide), hnot "final" (by decide), hnot "package" (by decide),
    hnot "import" (by decide), hinert, hangle, hlevel]

end Reading

end JavaOutline
