import JavaOutline.Proofs.Sessions

/-!
# JavaOutline.Proofs.PassingOver

Two readings of one text, of which the first passes over the bodies of
methods and the second reads them.

They go on in the same way, except where the second enters the body of a
method (`Progress.Move.Alike`).  So a relation between the two that every part
of a step keeps (`Progress.Accompanies`) holds at the end as well
(`Progress.Accompanies.read`).  The first reading is never inside of a method
(`Progress.OutsideMethods`), and everything that the second reads in the body
of a method is (`Progress.outsideMethods_of_mem_visits`).
-/

namespace JavaOutline

/-! ## Records without the variables of methods -/

/-- The method without its variables. -/
def Method.withoutLocals (m : Method) : Method := { m with locals := [] }

/-- The record without the variables of its methods. -/
def TypeRecord.withoutLocals (t : TypeRecord) : TypeRecord :=
  { t with methods := t.methods.map Method.withoutLocals }

@[simp] theorem TypeRecord.fullName_withoutLocals (t : TypeRecord) :
    t.withoutLocals.fullName = t.fullName := rfl

theorem TypeRecord.withoutLocals_addMethod (t : TypeRecord) (m : Method) :
    (t.addMethod m).withoutLocals = t.withoutLocals.addMethod m.withoutLocals := by
  simp [withoutLocals, addMethod]

theorem TypeRecord.withoutLocals_of_methods_eq_nil (t : TypeRecord) (h : t.methods = []) :
    t.withoutLocals = t := by
  rw [withoutLocals, h, List.map_nil, ← h]

/-! ## What statements declare -/

/-- What is declared, without the variables of a method. -/
def Declaration.withoutLocals : Declaration → Declaration
  | .method m => .method m.withoutLocals
  | d => d

theorem Modifiers.withoutLocals_declare (m : Modifiers) (tokens : List String) :
    (m.declare tokens).withoutLocals = m.declare tokens := by
  fun_cases Modifiers.declare m tokens <;> rfl

namespace Reading

theorem withoutLocals_member (level : Level) (m : Modifiers) (alone : Bool)
    (tokens : List String) :
    (member level m alone tokens).withoutLocals = member level m alone tokens := by
  have hdeclare := m.withoutLocals_declare tokens
  unfold member
  split
  · split <;> rfl
  · split
    · next hmethod =>
        rw [hmethod] at hdeclare
        split
        · rfl
        · exact hdeclare
    · exact hdeclare

/-- A statement says nothing about the variables of a method. -/
theorem withoutLocals_ofTokensAfter (level : Level) (m : Modifiers) (first : Bool)
    (tokens : List String) : (ofTokensAfter level m first tokens).declaration.withoutLocals =
      (ofTokensAfter level m first tokens).declaration := by
  fun_induction ofTokensAfter level m first tokens with
  | case1 => rfl
  | case2 _ _ _ _ _ _ ih => exact ih
  | case3 _ _ _ _ ih => exact ih
  | case4 _ _ _ _ _ ih => exact ih
  | case5 _ _ _ _ _ _ ih => exact ih
  | case6 _ _ _ _ _ _ _ ih => exact ih
  | case7 _ _ _ rest _ _ _ _ _ kind => cases TypeHeader.ofTokens? kind rest <;> rfl
  | case8 => rfl
  | case9 => rename_i ih; exact ih
  | case10 => rename_i ih; exact ih
  | case11 => rename_i ih; exact ih
  | case12 => exact withoutLocals_member _ _ _ _

end Reading

namespace Progress

/-! ## Outside of methods -/

/-- No body of a method is open. -/
def OutsideMethods (p : Progress) : Prop := ∀ frame ∈ p.nesting.frames, frame.kind = .typeBody

instance (p : Progress) : Decidable p.OutsideMethods :=
  inferInstanceAs (Decidable (∀ frame ∈ p.nesting.frames, frame.kind = .typeBody))

section

variable {withLocals : Bool} {p q : Progress} {text : List Char}

theorem outsideMethods_start : start.OutsideMethods := by
  intro frame hframe
  cases hframe

theorem OutsideMethods.level_ne (h : p.OutsideMethods) : p.nesting.level ≠ .methodBody := by
  obtain ⟨⟨file, frames⟩, records⟩ := p
  cases frames with
  | nil => simp [Nesting.level]
  | cons frame outer =>
      obtain ⟨kind, scope, record, resume⟩ := frame
      obtain rfl : kind = .typeBody := h _ List.mem_cons_self
      simp [Nesting.level]

/-- Outside of methods no block is searched. -/
theorem OutsideMethods.entersBlock (h : p.OutsideMethods) (tokens : List String) :
    p.entersBlock tokens = false := by
  simp [Progress.entersBlock, h.level_ne]

/-- Outside of methods a brace ends a body. -/
theorem OutsideMethods.leaveBlock? (h : p.OutsideMethods) : p.nesting.leaveBlock? = none := by
  obtain ⟨⟨file, frames⟩, records⟩ := p
  cases frames with
  | nil => rfl
  | cons frame outer =>
      obtain ⟨kind, scope, record, resume⟩ := frame
      obtain rfl : kind = .typeBody := h _ List.mem_cons_self
      rfl

theorem outsideMethods_iff_of_keeps (h : p.Keeps q) : p.OutsideMethods ↔ q.OutsideMethods :=
  h.around.typeBodies_iff

theorem outsideMethods_of_openBody {owner : Owner} {rest : List Char}
    (h : (q.openBody rest owner).OutsideMethods) : q.OutsideMethods := by
  cases owner with
  | type header =>
      exact (SameAround.mapEnclosingOf _ q.nesting.frames).typeBodies_iff.2 fun frame hframe =>
        h frame (List.mem_cons_of_mem _ hframe)
  | method method => exact fun frame hframe => h frame (List.mem_cons_of_mem _ hframe)

theorem outsideMethods_openType (h : p.OutsideMethods) (header : TypeHeader)
    (resume : List Char) : (p.openType header resume).OutsideMethods := by
  intro frame hframe
  rcases List.mem_cons.1 hframe with rfl | hframe
  · rfl
  · exact (SameAround.mapEnclosingOf _ p.nesting.frames).typeBodies_iff.1 h frame hframe

theorem outsideMethods_closeType (h : p.OutsideMethods) : p.closeType.OutsideMethods := by
  obtain ⟨⟨file, frames⟩, records⟩ := p
  cases frames with
  | nil => exact h
  | cons frame outer => exact fun f hf => h f (List.mem_cons_of_mem _ hf)

/-- A text that is read inside of a method is so from its first statement to
its last one. -/
theorem outsideMethods_of_mem_visits {v : Visit} (hv : v ∈ p.visits withLocals text)
    (h : v.progress.OutsideMethods) : p.OutsideMethods := by
  induction p, text using read_induction withLocals with
  | cutOff p text hscan =>
      rw [visits_of_scan_eq_none hscan] at hv
      cases hv
  | leave p text statement rest q hscan hmove =>
      rw [visits_of_scan hscan, hmove] at hv
      rcases List.mem_cons.1 hv with rfl | hv
      · exact h
      · cases hv
  | goOn p text statement rest q next hscan hmove ih =>
      have hkeeps := keeps_move withLocals p statement rest
      rw [hmove] at hkeeps
      rw [visits_of_scan hscan, hmove] at hv
      rcases List.mem_cons.1 hv with rfl | hv
      · exact h
      · exact (outsideMethods_iff_of_keeps hkeeps).2 (ih hv)
  | enter p text statement rest q owner body hscan hmove ihbody ihrest =>
      have hkeeps := keeps_move withLocals p statement rest
      rw [hmove] at hkeeps
      rw [visits_of_scan hscan, hmove] at hv
      rcases List.mem_cons.1 hv with rfl | hv
      · exact h
      refine (outsideMethods_iff_of_keeps hkeeps).2 ?_
      rcases List.mem_append.1 hv with hv | hv
      · exact outsideMethods_of_openBody (ihbody hv)
      · have hbody := keeps_closeBody withLocals q owner rest body
        exact (outsideMethods_iff_of_keeps hbody).2 (ihrest hv)

end

/-! ## Two readings -/

/-- A relation between two readings, of which the first passes over the
bodies of methods and the second reads those whose statements satisfy `C`:
every part of a step keeps it. -/
structure Accompanies (C : Visit → Prop) (R : Progress → Progress → Prop) : Prop where
  level {p q : Progress} (h : R p q) : p.nesting.level = q.nesting.level
  outside {p q : Progress} (h : R p q) : p.OutsideMethods
  outside' {p q : Progress} (h : R p q) : q.OutsideMethods
  mapScope {p q : Progress} (h : R p q) (f : Scope → Scope) : R (p.mapScope f) (q.mapScope f)
  declare {p q : Progress} (h : R p q) {d : Declaration} (hlocals : d.withoutLocals = d) :
    R (p.declare d) (q.declare d)
  openType {p q : Progress} (h : R p q) (header : TypeHeader) (resume : List Char) :
    R (p.openType header resume) (q.openType header resume)
  closeType {p q : Progress} (h : R p q) : R p.closeType q.closeType
  method {p q : Progress} (h : R p q) {m : Method} (hlocals : m.withoutLocals = m)
    {rest body : List Char} (hC : ∀ v ∈ (q.openMethod rest).visits true body, C v) :
    R (p.declare (.method m)) (((q.openMethod rest).read true body).closeMethod m)

/-- How two readings go on, of which the first passes over the bodies of
methods. -/
inductive Move.Alike (R : Progress → Progress → Prop) : Move → Move → Prop
  | leave {p q : Progress} (h : R p q) : Alike R (.leave p) (.leave q)
  | goOn {p q : Progress} (text : List Char) (h : R p q) : Alike R (.goOn p text) (.goOn q text)
  | type {p q : Progress} (header : TypeHeader) (body rest : List Char) (h : R p q) :
      Alike R (.enter p (.type header) body rest) (.enter q (.type header) body rest)
  | method {p q : Progress} {m : Method} (hlocals : m.withoutLocals = m) (body rest : List Char)
      (h : R p q) :
      Alike R (.goOn (p.declare (.method m)) rest) (.enter q (.method m) body rest)

namespace Accompanies

variable {C : Visit → Prop} {R : Progress → Progress → Prop} {p q : Progress}

theorem applyAll (hR : Accompanies C R) (clauses : List Clause) (h : R p q) :
    R (clauses.foldl apply p) (clauses.foldl apply q) := by
  induction clauses generalizing p q with
  | nil => exact h
  | cons clause clauses ih =>
      refine ih ?_
      cases clause with
      | package path => exact hR.mapScope h _
      | importOf full => exact hR.mapScope h _

theorem alike_moveAfter (hR : Accompanies C R) (h : R p q) {d : Declaration}
    (hlocals : d.withoutLocals = d) (tokens : List String) (ending : Ending (List Char))
    (rest : List Char) : Move.Alike R (moveAfter false p d tokens ending rest)
      (moveAfter true q d tokens ending rest) := by
  have hdeclared := hR.declare h hlocals
  have hp := hR.outside hdeclared
  have hq := hR.outside' hdeclared
  cases ending with
  | block body after =>
      cases d with
      | type header => exact .type header body rest h
      | method m =>
          simp only [moveAfter, ownerOf?, hp.entersBlock, Bool.false_eq_true, if_false]
          exact .method (Declaration.method.inj hlocals) body rest h
      | nothing =>
          simp only [moveAfter, ownerOf?, hp.entersBlock, hq.entersBlock, Bool.false_eq_true,
            if_false]
          exact .goOn rest hdeclared
      | fields members =>
          simp only [moveAfter, ownerOf?, hp.entersBlock, hq.entersBlock, Bool.false_eq_true,
            if_false]
          exact .goOn rest hdeclared
  | closeBrace =>
      simp only [moveAfter, hp.leaveBlock?, hq.leaveBlock?]
      exact .leave hdeclared
  | semicolon => exact .goOn rest hdeclared
  | label => exact .goOn rest hdeclared
  | endOfText => exact .goOn rest hdeclared

theorem alike_move (hR : Accompanies C R) (h : R p q) (statement : Statement (List Char))
    (rest : List Char) :
    Move.Alike R (p.move false statement rest) (q.move true statement rest) := by
  rw [move, move, hR.level h]
  exact hR.alike_moveAfter (hR.applyAll _ h) (Reading.withoutLocals_ofTokensAfter _ _ _ _) _ _ _

/-- What accompanies each step accompanies the whole reading. -/
theorem read (hR : Accompanies C R) {text : List Char} (h : R p q)
    (hC : ∀ v ∈ q.visits true text, C v) : R (p.read false text) (q.read true text) := by
  induction q, text using read_induction true generalizing p with
  | cutOff q text hscan => rwa [read_of_scan_eq_none hscan, read_of_scan_eq_none hscan]
  | leave q text statement rest q' hscan hmove =>
      have halike := hR.alike_move h statement rest
      rw [read_of_scan_of_move (p := p) hscan, read_of_scan_of_move (p := q) hscan]
      rw [hmove] at halike ⊢
      generalize p.move false statement rest = move at halike ⊢
      cases halike with
      | leave hleft => exact hleft
  | goOn q text statement rest q' next hscan hmove ih =>
      have halike := hR.alike_move h statement rest
      rw [visits_of_scan hscan] at hC
      rw [read_of_scan_of_move (p := p) hscan, read_of_scan_of_move (p := q) hscan]
      rw [hmove] at halike hC ⊢
      generalize p.move false statement rest = move at halike ⊢
      cases halike with
      | goOn _ hnext => exact ih hnext fun v hv => hC v (List.mem_cons_of_mem _ hv)
  | enter q text statement rest q' owner body hscan hmove ihbody ihrest =>
      have halike := hR.alike_move h statement rest
      rw [visits_of_scan hscan] at hC
      rw [read_of_scan_of_move (p := p) hscan, read_of_scan_of_move (p := q) hscan]
      rw [hmove] at halike hC ⊢
      have hbody : ∀ v ∈ (q'.openBody rest owner).visits true body, C v := fun v hv =>
        hC v (List.mem_cons_of_mem _ (List.mem_append_left _ hv))
      have hrest : ∀ v ∈ (((q'.openBody rest owner).read true body).closeBody owner).visits true
          rest, C v := fun v hv =>
        hC v (List.mem_cons_of_mem _ (List.mem_append_right _ hv))
      generalize p.move false statement rest = move at halike ⊢
      cases halike with
      | type header _ _ hopen =>
          exact ihrest (hR.closeType (ihbody (hR.openType hopen header rest) hbody)) hrest
      | method hlocals _ _ hpassed => exact ihrest (hR.method hpassed hlocals hbody) hrest

end Accompanies

end Progress

end JavaOutline
