import JavaOutline.Proofs.Grammar.Declarators
import JavaOutline.Proofs.Grammar.GenericHeadings

/-!
# JavaOutline.Proofs.Grammar.ModifierLists

Lists of modifiers in front of the members of types.  Only five of the words
count (`Modifier.counts`), and with one access level at most it does not matter
in which order they come (`modifiersOf_eq_of_perm`).  So lists in which the same
words count may stand for each other, in front of fields, of methods and
constructors, and of types (`BeginsMember.exchangeable`): the texts are read into
the same registry (`readText_modifiers`).
-/

namespace JavaOutline

open Text OpenStatement

/-! ## What counts -/

namespace Modifier

/-- Whether a modifier says anything about a member. -/
def counts (m : Modifier) : Bool :=
  ["public", "protected", "private", "static", "final"].contains m.text

end Modifier

/-- Whether a text begins with a member of a type that has no modifiers: with
fields, with a method or constructor, or with the header of a type. -/
inductive BeginsMember (text : List Char) : Prop
  | fields (f : FieldDeclaration) (hnone : f.modifiers = []) {rest : List Char}
      (hlaid : f.LaidOut text rest)
  | method (h : Signature) (hnone : h.modifiers = []) {rest : List Char}
      (hlaid : Laid h.lexemes text rest)
  | type (h : GenericHeading) (hnone : h.modifiers = []) {rest : List Char}
      (hlaid : Laid h.lexemes text rest)

section

variable {ms ms' : List Modifier} {member x x' rest : List Char}

/-- Fields are added with what the modifiers say. -/
theorem FieldDeclaration.read_modifiers (f : FieldDeclaration) (hnone : f.modifiers = [])
    (hlaid : f.LaidOut member rest) (hx : Laid (modifierLexemes ms) x member)
    (withLocals : Bool) {p : Progress} (hlevel : p.nesting.level = .typeBody) :
    p.read withLocals x = (p.mapRecord (TypeRecord.addFields
      ({ f with modifiers := ms } : FieldDeclaration).fields)).read withLocals rest := by
  obtain ⟨mid, htype, hlisted⟩ := hlaid
  rw [hnone] at htype
  exact (declares_fields { f with modifiers := ms } hlevel withLocals
    ⟨mid, hx.trans htype, hlisted⟩).1

/-- Modifiers that say the same may stand for each other in front of a member. -/
theorem BeginsMember.exchangeable (h : BeginsMember member)
    (hsame : modifiersOf ms = modifiersOf ms') (hx : Laid (modifierLexemes ms) x member)
    (hx' : Laid (modifierLexemes ms') x' member) : Exchangeable .typeBody x x' := by
  have hbraces := (balanced_modifiers ms).afterBracket_eq (balanced_modifiers ms') hx hx'
  cases h with
  | fields f hnone hlaid =>
      refine ⟨hbraces, fun withLocals p hlevel => ?_⟩
      have hfields : ({ f with modifiers := ms } : FieldDeclaration).fields =
          ({ f with modifiers := ms' } : FieldDeclaration).fields := by
        unfold FieldDeclaration.fields FieldDeclaration.field
        rw [hsame]
        rfl
      rw [f.read_modifiers hnone hlaid hx withLocals hlevel,
        f.read_modifiers hnone hlaid hx' withLocals hlevel, hfields]
  | method h hnone hlaid =>
      have hopening : ∀ others, ({ h with modifiers := others } : Signature).openingLexemes =
          modifierLexemes others ++ h.openingLexemes := by
        intro others
        rw [Signature.openingLexemes, Signature.openingLexemes, Signature.namedLexemes,
          Signature.namedLexemes, hnone]
        simp [modifierLexemes, Signature.typeParameterLexemes, Signature.memberLexemes]
      obtain ⟨hscan, hreading⟩ := Signature.scan_front (hopening ms) rfl rfl rfl hx hlaid
      obtain ⟨hscan', hreading'⟩ := Signature.scan_front (hopening ms') rfl rfl rfl hx' hlaid
      refine .of_scan hbraces hscan hscan' ?_ (by simp)
      rw [hreading, hreading', Signature.method, Signature.method, hsame]
  | type h hnone hlaid =>
      have hlexemes : ∀ others, ({ h with modifiers := others } : GenericHeading).lexemes =
          modifierLexemes others ++ h.lexemes := by
        intro others
        simp [GenericHeading.lexemes, GenericHeading.openingLexemes, GenericHeading.closingLexemes,
          hnone, modifierLexemes]
      have hbrace : h.lexemes ≠ [] := by
        simp [GenericHeading.lexemes, GenericHeading.closingLexemes]
      refine .of_scan hbraces (GenericHeading.scan_front (hlexemes ms) hbrace hx hlaid)
        (GenericHeading.scan_front (hlexemes ms') hbrace hx' hlaid) ?_ (by simp)
      obtain ⟨header, hheader, hreading⟩ :=
        ({ h with modifiers := ms } : GenericHeading).exists_reading_eq
      obtain ⟨header', hheader', hreading'⟩ :=
        ({ h with modifiers := ms' } : GenericHeading).exists_reading_eq
      obtain rfl : header = header' := Option.some.inj (hheader.symm.trans hheader')
      rw [hreading _ (by simp), hreading' _ (by simp)]

end

end JavaOutline
