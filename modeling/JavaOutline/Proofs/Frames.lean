import JavaOutline.Proofs.Reading

/-!
# JavaOutline.Proofs.Frames

What reading leaves alone.  Bodies are left as often as they are entered,
so whatever text is read, the bodies around the innermost type stay as they
were, the variables that a method has stay its first ones, and records are
only added (`Progress.keeps_read`).  So a type can be passed over whatever
its body holds (`Progress.closeType_read`).
-/

namespace JavaOutline

/-! ## Bodies around the innermost type -/

/-- Bodies that differ up to the innermost type at most, and are of the
same kinds; those of methods may have more variables. -/
inductive SameAround {place : Type} : List (Frame place) → List (Frame place) → Prop
  | nil : SameAround [] []
  | type {frame frame' : Frame place} (outer : List (Frame place))
      (hkind : frame.kind = .typeBody) (hkind' : frame'.kind = .typeBody) :
      SameAround (frame :: outer) (frame' :: outer)
  | method {frame frame' : Frame place} {depth depth' : Nat} {outer outer' : List (Frame place)}
      (hkind : frame.kind = .methodBody depth) (hkind' : frame'.kind = .methodBody depth')
      (hfields : frame.record.fields <+: frame'.record.fields) (h : SameAround outer outer') :
      SameAround (frame :: outer) (frame' :: outer')

namespace SameAround

variable {place : Type} {frames frames' frames'' : List (Frame place)}

/-- The innermost body may change and get more fields, but its kind stays. -/
theorem innermost {frame frame' : Frame place} (outer : List (Frame place))
    (hkinds : frame'.kind = frame.kind) (hfields : frame.record.fields <+: frame'.record.fields)
    (houter : SameAround outer outer) : SameAround (frame :: outer) (frame' :: outer) := by
  cases hkind : frame.kind with
  | typeBody => exact .type outer hkind (hkinds.trans hkind)
  | methodBody depth => exact .method hkind (hkinds.trans hkind) hfields houter

theorem refl (frames : List (Frame place)) : SameAround frames frames := by
  induction frames with
  | nil => exact .nil
  | cons frame outer ih => exact .innermost outer rfl (List.prefix_refl _) ih

theorem trans (h : SameAround frames frames') (h' : SameAround frames' frames'') :
    SameAround frames frames'' := by
  induction h generalizing frames'' with
  | nil => exact h'
  | type outer hkind hkind' =>
      cases h' with
      | type _ _ hlast => exact .type outer hkind hlast
      | method hmethod _ _ _ =>
          rw [hkind'] at hmethod
          cases hmethod
  | method hkind hkind' hfields _ ih =>
      cases h' with
      | type _ htype _ =>
          rw [hkind'] at htype
          cases htype
      | method _ hlast hfields' houter =>
          exact .method hkind hlast (hfields.trans hfields') (ih houter)

theorem ne_nil (h : SameAround frames frames') (hne : frames ≠ []) : frames' ≠ [] := by
  cases h with
  | nil => exact absurd rfl hne
  | type => simp
  | method => simp

theorem mapEnclosingOf (f : TypeRecord → TypeRecord) (frames : List (Frame place)) :
    SameAround frames (Nesting.mapEnclosingOf f frames) := by
  fun_induction Nesting.mapEnclosingOf f frames with
  | case1 => exact .nil
  | case2 => exact .type _ rfl rfl
  | case3 _ _ _ _ _ ih => exact .method rfl rfl (List.prefix_refl _) ih

/-- Bodies that are those of types only stay so, and were so. -/
theorem typeBodies_iff (h : SameAround frames frames') :
    (∀ frame ∈ frames, frame.kind = .typeBody) ↔ ∀ frame ∈ frames', frame.kind = .typeBody := by
  cases h with
  | nil => exact Iff.rfl
  | type outer hkind hkind' => simp [hkind, hkind']
  | method hkind hkind' _ _ => simp [hkind, hkind']

end SameAround

/-! ## What is kept -/

namespace Progress

/-- The bodies around the innermost type are kept, with the scope of the
file if there is a body, and so are the records. -/
structure Keeps (p q : Progress) : Prop where
  around : SameAround p.nesting.frames q.nesting.frames
  file : p.nesting.frames ≠ [] → q.nesting.file = p.nesting.file
  records : p.records <+: q.records

namespace Keeps

variable {p q r : Progress}

theorem refl (p : Progress) : p.Keeps p := ⟨.refl _, fun _ => rfl, List.prefix_refl _⟩

theorem trans (hpq : p.Keeps q) (hqr : q.Keeps r) : p.Keeps r :=
  ⟨hpq.around.trans hqr.around,
    fun hne => (hqr.file (hpq.around.ne_nil hne)).trans (hpq.file hne),
    hpq.records.trans hqr.records⟩

theorem mapScope (f : Scope → Scope) (p : Progress) : p.Keeps (p.mapScope f) := by
  obtain ⟨⟨file, frames⟩, records⟩ := p
  cases frames with
  | nil => exact ⟨.nil, fun hne => absurd rfl hne, List.prefix_refl _⟩
  | cons frame outer =>
      exact ⟨.innermost outer rfl (List.prefix_refl _) (.refl outer), fun _ => rfl,
        List.prefix_refl _⟩

/-- A record may change that keeps its fields. -/
theorem mapRecord {f : TypeRecord → TypeRecord}
    (hf : ∀ record, record.fields <+: (f record).fields) (p : Progress) :
    p.Keeps (p.mapRecord f) := by
  obtain ⟨⟨file, frames⟩, records⟩ := p
  cases frames with
  | nil => exact .refl _
  | cons frame outer =>
      exact ⟨.innermost outer rfl (hf _) (.refl outer), fun _ => rfl, List.prefix_refl _⟩

theorem addMethod (method : Method) (p : Progress) :
    p.Keeps (p.mapRecord fun record => record.addMethod method) :=
  mapRecord (f := fun record => record.addMethod method) (fun _ => List.prefix_refl _) p

theorem enterBlock (p : Progress) : p.Keeps { p with nesting := p.nesting.enterBlock } := by
  obtain ⟨⟨file, frames⟩, records⟩ := p
  cases frames with
  | nil => exact .refl _
  | cons frame outer =>
      obtain ⟨kind, scope, record, resume⟩ := frame
      cases kind with
      | typeBody => exact .refl _
      | methodBody depth =>
          exact ⟨.method rfl rfl (List.prefix_refl _) (.refl outer), fun _ => rfl,
            List.prefix_refl _⟩

theorem leaveBlock {n : Nesting (List Char)} (h : p.nesting.leaveBlock? = some n) :
    p.Keeps { p with nesting := n } := by
  obtain ⟨⟨file, frames⟩, records⟩ := p
  unfold Nesting.leaveBlock? at h
  split at h
  · next depth scope record resume outer heq =>
      cases h
      simp only at heq
      subst heq
      exact ⟨.method rfl rfl (List.prefix_refl _) (.refl outer), fun _ => rfl,
        List.prefix_refl _⟩
  · cases h

theorem apply (p : Progress) (clause : Clause) : p.Keeps (p.apply clause) := by
  cases clause with
  | package path => exact mapScope _ p
  | importOf full => exact mapScope _ p

theorem applyAll (p : Progress) (clauses : List Clause) :
    p.Keeps (clauses.foldl Progress.apply p) := by
  induction clauses generalizing p with
  | nil => exact .refl p
  | cons clause clauses ih => exact (apply p clause).trans (ih _)

theorem declare (p : Progress) (declaration : Declaration) : p.Keeps (p.declare declaration) := by
  cases declaration with
  | nothing => exact .refl p
  | type header => exact .refl p
  | fields members =>
      refine mapRecord (fun record => ?_) p
      rw [foldl_addField]
      exact List.prefix_append _ _
  | method method => exact addMethod method p

/-- A type that is left after it has been entered changes the record of the
type around at most. -/
theorem closeType {header : TypeHeader} {resume : List Char}
    (h : (p.openType header resume).Keeps q) : q.closeType.nesting =
        p.nesting.mapEnclosing (fun outer =>
          outer.addImport header.name (qualify p.nesting.scope.path header.name)) ∧
      p.records <+: q.closeType.records := by
  obtain ⟨⟨file, frames⟩, records⟩ := q
  have haround := h.around
  have hfile := h.file (by simp [openType, Nesting.push])
  simp only [openType, Nesting.push] at haround hfile
  cases haround with
  | type _ _ _ =>
      refine ⟨?_, h.records.trans (List.prefix_append _ _)⟩
      simp only [Progress.closeType, Nesting.pop?, hfile]
  | method hkind _ _ _ => cases hkind

/-- Inside a method, the bodies around it are kept as well, and so are the
variables that have been found. -/
theorem exists_push {n : Nesting (List Char)} {frame : Frame (List Char)} {depth : Nat}
    (hpush : p.nesting = n.push frame) (hkind : frame.kind = .methodBody depth) (h : p.Keeps q) :
    ∃ n' frame', q.nesting = n'.push frame' ∧ frame.record.fields <+: frame'.record.fields ∧
      (⟨n, p.records⟩ : Progress).Keeps ⟨n', q.records⟩ := by
  obtain ⟨⟨file, frames⟩, records⟩ := q
  have haround := h.around
  have hfile := h.file (by simp [hpush, Nesting.push])
  simp only [hpush, Nesting.push] at haround hfile
  cases haround with
  | type _ htype _ =>
      rw [hkind] at htype
      cases htype
  | @method _ frame' _ _ _ outer _ _ hfields houter =>
      exact ⟨⟨file, outer⟩, frame', rfl, hfields, houter, fun _ => hfile, h.records⟩

end Keeps

theorem Keeps.closeMethod {p q : Progress} {resume : List Char} (method : Method)
    (h : (p.openMethod resume).Keeps q) : p.Keeps (q.closeMethod method) := by
  obtain ⟨n, frame, hpush, _, hleft⟩ := h.exists_push rfl rfl
  rw [closeMethod_of_push hpush]
  exact hleft.trans (addMethod _ _)

/-! ## Reading -/

/-- Reading on after a statement keeps what reading the texts in it and
after it keeps. -/
theorem keeps_readAfter {withLocals : Bool} {declaration : Declaration} {tokens : List String}
    {ending : Ending (List Char)} {rest : List Char}
    (hrest : ∀ p : Progress, p.Keeps (p.read withLocals rest))
    (hbody : ∀ body after, ending = .block body after →
      ∀ p : Progress, p.Keeps (p.read withLocals body)) (q : Progress) :
    q.Keeps (q.readAfter withLocals declaration tokens ending rest) := by
  have hdeclared := Keeps.declare q declaration
  cases ending with
  | block body after =>
      have hinside := hbody body after rfl
      -- A block that declares nothing is searched or passed over.
      have hplain : q.Keeps (if (q.declare declaration).entersBlock tokens then
          ({ q.declare declaration with
            nesting := (q.declare declaration).nesting.enterBlock } : Progress).read withLocals body
          else (q.declare declaration).read withLocals rest) := by
        split
        · exact hdeclared.trans ((Keeps.enterBlock _).trans (hinside _))
        · exact hdeclared.trans (hrest _)
      cases declaration with
      | nothing => exact hplain
      | fields members => exact hplain
      | type header =>
          obtain ⟨hnesting, hrecords⟩ := Keeps.closeType (hinside (q.openType header rest))
          have hclosed : q.Keeps ((q.openType header rest).read withLocals body).closeType := by
            refine ⟨?_, fun _ => by rw [hnesting]; rfl, hrecords⟩
            rw [hnesting]
            exact .mapEnclosingOf _ _
          exact hclosed.trans (hrest _)
      | method method =>
          cases withLocals with
          | false => exact hplain
          | true => exact (Keeps.closeMethod method (hinside (q.openMethod rest))).trans (hrest _)
  | closeBrace =>
      simp only [readAfter]
      split
      · next hleave => exact hdeclared.trans ((Keeps.leaveBlock hleave).trans (hrest _))
      · exact hdeclared
  | semicolon => exact hdeclared.trans (hrest _)
  | label => exact hdeclared.trans (hrest _)
  | endOfText => exact hdeclared.trans (hrest _)

/-- Whatever text is read, the bodies around the innermost type and the
records are kept. -/
theorem keeps_read (withLocals : Bool) (p : Progress) (text : List Char) :
    p.Keeps (p.read withLocals text) := by
  induction hlength : text.length using Nat.strongRecOn generalizing p text with
  | ind length ih =>
    subst hlength
    cases hscan : scan text with
    | none =>
        rw [read_of_scan_eq_none hscan]
        exact .refl p
    | some next =>
        obtain ⟨statement, rest⟩ := next
        have hrest : ∀ q : Progress, q.Keeps (q.read withLocals rest) := fun q =>
          ih rest.length (length_lt_of_scan hscan) q rest rfl
        have hbody : ∀ body after, statement.ending = .block body after →
            ∀ q : Progress, q.Keeps (q.read withLocals body) := fun body after hblock q =>
          ih body.length (length_body_lt_of_scan hscan hblock) q body rfl
        rw [read_of_scan hscan]
        exact (Keeps.applyAll p _).trans (keeps_readAfter hrest hbody _)

/-- Whatever the body of a type holds, after it reading stands where it
stood, and the type around knows the type. -/
theorem closeType_read (withLocals : Bool) (p : Progress) (header : TypeHeader)
    (resume body : List Char) : ∃ records,
      ((p.openType header resume).read withLocals body).closeType =
        ⟨p.nesting.mapEnclosing fun outer =>
            outer.addImport header.name (qualify p.nesting.scope.path header.name),
          p.records ++ records⟩ := by
  obtain ⟨hnesting, records, hrecords⟩ :=
    Keeps.closeType (keeps_read withLocals (p.openType header resume) body)
  refine ⟨records, ?_⟩
  rw [hrecords, ← hnesting]

end Progress

end JavaOutline
