import JavaOutline.Batch.Reader
import JavaOutline.Proofs.Invisible.Statements
import JavaOutline.Proofs.Places
import JavaOutline.Proofs.Reading
import JavaOutline.Proofs.Registering

/-!
# JavaOutline.Proofs.Alike

Texts that are read alike because they are scanned alike.

That scanning keeps a relation of texts (`KeptByScan`) is all that has to be known of the
characters.  Two readings go through such texts statement by statement and stay at the
same nesting, apart from the places (`KeptByScan.same_read`), so the texts are read into
the same registry (`KeptByScan.readText_eq`), and they have the same statements
(`KeptByScan.shapes_eq`).
-/

namespace JavaOutline

namespace KeptByScan

variable {R : List Char → List Char → Prop} {s t : List Char}

/-! ## Statements and readings -/

/-- Texts that are scanned alike have the same statements. -/
theorem shapes_eq (hR : KeptByScan R) (h : R s t) : SameCode.shapes s = SameCode.shapes t := by
  induction hlength : s.length using Nat.strongRecOn generalizing s t with
  | ind n ih =>
      have hscan := hR s t h
      generalize hleft : scan s = left at hscan
      generalize hright : scan t = right at hscan
      cases hscan with
      | none => rw [SameCode.shapes_of_scan_eq_none hleft, SameCode.shapes_of_scan_eq_none hright]
      | @some a b rest rest' htokens hending h =>
          have hshape : a.shape = b.shape := by
            simp only [Statement.shape, Statement.map, htokens, hending.map_unit_eq]
          rw [SameCode.shapes_of_scan hleft, SameCode.shapes_of_scan hright, hshape,
            ih _ (hlength ▸ length_lt_of_scan hleft) h rfl]

section

open Progress

variable {p q : Progress}

/-- Reading on after the same statement keeps two readings together, if reading the
shorter texts that follow does. -/
theorem same_readAfter (h : Same p q) {length : Nat} (withLocals : Bool)
    (hread : ∀ {s t : List Char} {p q : Progress}, s.length < length → Same p q → R s t →
      Same (p.read withLocals s) (q.read withLocals t))
    (declaration : Declaration) (tokens : List String) {ending ending' : Ending (List Char)}
    (hending : EndingAlike R ending ending')
    (hbody : ∀ body after, ending = .block body after → body.length < length)
    {rest rest' : List Char} (hrest : R rest rest') (hlt : rest.length < length) :
    Same (p.readAfter withLocals declaration tokens ending rest)
      (q.readAfter withLocals declaration tokens ending' rest') := by
  have hdeclare := h.declare declaration
  cases hending with
  | semicolon => exact hread hlt hdeclare hrest
  | label => exact hread hlt hdeclare hrest
  | endOfText => exact hread hlt hdeclare hrest
  | closeBrace =>
      simp only [readAfter]
      obtain ⟨hp, hq⟩ | ⟨n, m, hp, hq, hsame⟩ := hdeclare.leaveBlock
      · rw [hp, hq]
        exact hdeclare
      · rw [hp, hq]
        exact hread hlt hsame hrest
  | @block body body' after after' hbodies =>
      have hinside := hbody body after rfl
      simp only [readAfter]
      split
      · next header =>
          exact hread hlt (hread hinside (h.openType header rest rest') hbodies).closeType hrest
      · next method =>
          have hbodyRead := hread hinside (h.openMethod rest rest') hbodies
          exact hread hlt (hbodyRead.closeMethod method) hrest
      · rw [hdeclare.entersBlock_eq tokens]
        split
        · exact hread hinside hdeclare.enterBlock hbodies
        · exact hread hlt hdeclare hrest

/-- Two readings that have come to the same stay together on texts that are scanned
alike. -/
theorem same_read (hR : KeptByScan R) (h : Same p q) (hst : R s t) (withLocals : Bool) :
    Same (p.read withLocals s) (q.read withLocals t) := by
  induction hlength : s.length using Nat.strongRecOn generalizing p q s t with
  | ind n ih =>
      have hscan := hR s t hst
      generalize hleft : scan s = left at hscan
      generalize hright : scan t = right at hscan
      cases hscan with
      | none =>
          rw [read_of_scan_eq_none hleft, read_of_scan_eq_none hright]
          exact h
      | some htokens hending hrest =>
          rw [read_of_scan hleft, read_of_scan hright, h.level_eq, htokens]
          exact same_readAfter (h.foldl_apply _) withLocals
            (fun hshort hsame hst => ih _ (hlength ▸ hshort) hsame hst rfl) _ _ hending
            (fun _ _ hblock => length_body_lt_of_scan hleft hblock) hrest (length_lt_of_scan hleft)

end

theorem outline_eq (hR : KeptByScan R) {s t : String} (h : R s.toList t.toList)
    (withLocals : Bool) : outline withLocals s = outline withLocals t :=
  (hR.same_read (p := .start) (q := .start) ⟨rfl, rfl⟩ h withLocals).records

/-- Texts that are scanned alike are read into the same registry, with the same names. -/
theorem readText_eq (hR : KeptByScan R) {s t : String} (h : R s.toList t.toList) (r : Registry)
    (withLocals : Bool) : r.readText withLocals s = r.readText withLocals t := by
  rw [Registry.readText_eq, Registry.readText_eq, hR.outline_eq h]

end KeptByScan

end JavaOutline
