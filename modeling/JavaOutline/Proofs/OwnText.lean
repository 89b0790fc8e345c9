import JavaOutline.Proofs.Completing
import JavaOutline.Proofs.Onward
import JavaOutline.Proofs.Places
import JavaOutline.Proofs.Restoring

/-!
# JavaOutline.Proofs.OwnText

Bodies that are read from their own text.

A body is closed by a text if reading the text comes to the brace that ends it
and all statements on the way are complete (`Progress.ends`).  Then it does not
matter what follows: the same moves are made in front of every other text
(`Progress.Move.Extends`), so the same is read (`Progress.Same`), and every
statement lies in the text itself (`Progress.read_append`).  A body that its
own text does not close is read from some other text as well
(`Progress.exists_visit_of_not_ends`).

`reads_own_text_iff` says this of the block of a statement.
-/

namespace JavaOutline

namespace Progress

/-! ## Bodies that are opened and closed -/

section

variable {p q : Progress}

theorem Same.refl (p : Progress) : p.Same p := ⟨rfl, rfl⟩

theorem Same.openBody (h : p.Same q) (owner : Owner) (resume resume' : List Char) :
    (p.openBody resume owner).Same (q.openBody resume' owner) := by
  cases owner with
  | type header => exact h.openType header resume resume'
  | method m => exact h.openMethod resume resume'

theorem Same.closeBody (h : p.Same q) (owner : Owner) :
    (p.closeBody owner).Same (q.closeBody owner) := by
  cases owner with
  | type header => exact h.closeType
  | method m => exact h.closeMethod m

end

/-! ## Moves in front of another text -/

/-- The same move in front of a text `y` at the end. -/
inductive Move.Extends (y : List Char) : Move → Move → Prop
  | leave {p q : Progress} (h : p.Same q) : Extends y (.leave p) (.leave q)
  | goOn {p q : Progress} (h : p.Same q) (text : List Char) :
      Extends y (.goOn p text) (.goOn q (text ++ y))
  | enter {p q : Progress} (h : p.Same q) (owner : Owner) (body rest : List Char) :
      Extends y (.enter p owner body rest) (.enter q owner (body ++ y) (rest ++ y))

section

variable {withLocals : Bool} {p q : Progress} {y : List Char}

theorem Same.extends_moveAfter (h : p.Same q) (d : Declaration) (tokens : List String)
    (ending : Ending (List Char)) (rest y : List Char) :
    Move.Extends y (moveAfter withLocals p d tokens ending rest)
      (moveAfter withLocals q d tokens (ending.map (· ++ y)) (rest ++ y)) := by
  have hdeclared := h.declare d
  cases ending with
  | block body after =>
      simp only [Ending.map, moveAfter]
      cases ownerOf? withLocals d with
      | some owner => exact .enter h owner body rest
      | none =>
          simp only [← hdeclared.entersBlock_eq]
          split
          · exact .goOn hdeclared.enterBlock body
          · exact .goOn hdeclared rest
  | closeBrace =>
      simp only [Ending.map, moveAfter]
      rcases hdeclared.leaveBlock with ⟨hp, hq⟩ | ⟨n, m, hp, hq, hleft⟩
      · rw [hp, hq]
        exact .leave hdeclared
      · rw [hp, hq]
        exact .goOn hleft rest
  | semicolon => exact .goOn hdeclared rest
  | label => exact .goOn hdeclared rest
  | endOfText => exact .goOn hdeclared rest

/-- The same statement is followed by the same move. -/
theorem Same.extends_move (withLocals : Bool) (h : p.Same q) (statement : Statement (List Char))
    (rest y : List Char) : Move.Extends y (p.move withLocals statement rest)
      (q.move withLocals (statement.append y) (rest ++ y)) := by
  simp only [move, ← h.level_eq, Statement.append, Statement.map]
  exact (h.foldl_apply _).extends_moveAfter _ _ _ _ _

/-! ## Texts that close a body -/

/-- Whether reading a text comes to the brace that ends the innermost body,
and all statements on the way are complete. -/
def ends (withLocals : Bool) (p : Progress) (text : List Char) : Bool :=
  match _ : scan text with
  | none => false
  | some (statement, rest) =>
    statement.isComplete &&
      match _ : p.move withLocals statement rest with
      | .leave _ => true
      | .goOn q next => q.ends withLocals next
      | .enter q owner body after =>
        (q.openBody after owner).ends withLocals body &&
          (((q.openBody after owner).read withLocals body).closeBody owner).ends withLocals after
termination_by text.length
decreasing_by
  · exact length_lt_of_goOn ‹_› ‹_›
  · exact (length_lt_of_enter ‹_› ‹_›).1
  · exact (length_lt_of_enter ‹_› ‹_›).2

/-- Whether reading on after a statement comes to the brace. -/
def Move.ends (withLocals : Bool) : Move → Bool
  | .leave _ => true
  | .goOn q text => q.ends withLocals text
  | .enter q owner body rest =>
    (q.openBody rest owner).ends withLocals body &&
      (((q.openBody rest owner).read withLocals body).closeBody owner).ends withLocals rest

theorem ends_of_scan_eq_none {text : List Char} (h : scan text = none) :
    p.ends withLocals text = false := by
  rw [ends]
  split
  · rfl
  · next h' => rw [h] at h'; cases h'

theorem ends_of_scan {text rest : List Char} {statement : Statement (List Char)}
    (h : scan text = some (statement, rest)) : p.ends withLocals text =
      (statement.isComplete && (p.move withLocals statement rest).ends withLocals) := by
  rw [ends]
  split
  · next h' => rw [h] at h'; cases h'
  · next h' =>
      rw [h] at h'
      cases h'
      cases hmove : p.move withLocals statement rest <;> simp [Move.ends]

/-- A statement that is complete stays as it is in front of another text. -/
theorem scan_append_of_isComplete {t rest : List Char} {statement : Statement (List Char)}
    (h : scan t = some (statement, rest)) (hcomplete : statement.isComplete = true)
    (y : List Char) : scan (t ++ y) = some (statement.append y, rest ++ y) := by
  rw [← List.append_nil t] at h
  obtain ⟨own, after, hown, hall⟩ := scan_append h hcomplete (Nat.zero_le _)
  rw [List.append_nil, hown] at h
  cases h
  exact hall y

/-- A statement that is read lies in front of a text at the end. -/
def Visit.Before (y : List Char) (v : Visit) : Prop := y <:+ v.rest

/-- Two readings come to the same, and the second reads nothing of the text
`y` at the end. -/
structure StaysBefore (y : List Char) (read read' : Progress) (visits : List Visit) : Prop where
  same : read.Same read'
  before : ∀ v ∈ visits, v.Before y

/-- A complete statement stays before another text, if what is read on does. -/
theorem staysBefore_of_scan {t rest y : List Char} {statement : Statement (List Char)}
    (hscan : scan t = some (statement, rest)) (hcomplete : statement.isComplete = true)
    (hsame : p.Same q)
    (h : ∀ move, Move.Extends y (p.move withLocals statement rest) move →
      StaysBefore y ((p.move withLocals statement rest).finish withLocals) (move.finish withLocals)
        (move.visits withLocals)) :
    StaysBefore y (p.read withLocals t) (q.read withLocals (t ++ y))
      (q.visits withLocals (t ++ y)) := by
  have hscany := scan_append_of_isComplete hscan hcomplete y
  obtain ⟨hread, hvisits⟩ := h _ (hsame.extends_move withLocals statement rest y)
  rw [read_of_scan_of_move hscan, read_of_scan_of_move hscany, visits_of_scan hscany]
  refine ⟨hread, fun v hv => ?_⟩
  rcases List.mem_cons.1 hv with rfl | hv
  · exact List.suffix_append rest y
  · exact hvisits v hv

/-- **A body that its own text closes is read from it.**  In front of every
other text the same is read, and no statement reaches into the other text. -/
theorem read_append {t : List Char} (h : p.ends withLocals t = true) (hsame : p.Same q)
    (y : List Char) : StaysBefore y (p.read withLocals t) (q.read withLocals (t ++ y))
      (q.visits withLocals (t ++ y)) := by
  induction p, t using read_induction withLocals generalizing q with
  | cutOff p t hscan =>
      rw [ends_of_scan_eq_none hscan] at h
      cases h
  | leave p t statement rest p' hscan hmove =>
      rw [ends_of_scan hscan, hmove, Bool.and_eq_true] at h
      refine staysBefore_of_scan hscan h.1 hsame fun move hmoves => ?_
      rw [hmove] at hmoves ⊢
      cases hmoves with
      | leave hleft => exact ⟨hleft, fun v hv => by cases hv⟩
  | goOn p t statement rest p' next hscan hmove ih =>
      rw [ends_of_scan hscan, hmove, Bool.and_eq_true] at h
      refine staysBefore_of_scan hscan h.1 hsame fun move hmoves => ?_
      rw [hmove] at hmoves ⊢
      cases hmoves with
      | goOn hnext => exact ih h.2 hnext
  | enter p t statement rest p' owner body hscan hmove ihbody ihrest =>
      rw [ends_of_scan hscan, hmove, Bool.and_eq_true] at h
      obtain ⟨hbody, hrest⟩ := Bool.and_eq_true_iff.1 h.2
      refine staysBefore_of_scan hscan h.1 hsame fun move hmoves => ?_
      rw [hmove] at hmoves ⊢
      cases hmoves with
      | enter hopen =>
          have hinside := ihbody hbody (hopen.openBody owner rest (rest ++ y))
          have hafter := ihrest hrest (hinside.same.closeBody owner)
          refine ⟨hafter.same, fun v hv => ?_⟩
          rcases List.mem_append.1 hv with hv | hv
          · exact hinside.before v hv
          · exact hafter.before v hv

/-- What is the same and goes on at the same places is equal. -/
theorem Same.eq (h : p.Same q)
    (hplaces : p.nesting.frames.map Frame.resume = q.nesting.frames.map Frame.resume) : p = q := by
  obtain ⟨⟨file, frames⟩, records⟩ := p
  obtain ⟨⟨file', frames'⟩, records'⟩ := q
  obtain ⟨hnesting, hrecords⟩ := h
  simp only [Nesting.withoutPlaces, Nesting.mk.injEq] at hnesting hrecords
  obtain ⟨rfl, hframes⟩ := hnesting
  subst hrecords
  congr 2
  induction frames generalizing frames' with
  | nil => simpa using hframes.symm
  | cons frame outer ih =>
      cases frames' with
      | nil => simp at hframes
      | cons frame' outer' =>
          obtain ⟨hframe, houter⟩ := List.cons.inj hframes
          obtain ⟨hplace, htail⟩ := List.cons.inj hplaces
          obtain ⟨kind, scope, record, resume⟩ := frame
          obtain ⟨kind', scope', record', resume'⟩ := frame'
          cases hframe
          cases hplace
          rw [ih outer' houter htail]

/-- A body that its own text closes leaves the same whatever follows. -/
theorem closeBody_read_append {t resume : List Char} {owner : Owner}
    (h : (q.openBody resume owner).ends withLocals t = true) (y resume' : List Char) :
    ((q.openBody resume' owner).read withLocals (t ++ y)).closeBody owner =
      ((q.openBody resume owner).read withLocals t).closeBody owner := by
  have hsame := (read_append h ((Same.refl q).openBody owner resume resume') y).same
  refine ((hsame.closeBody owner).eq ?_).symm
  rw [(learns_closeBody withLocals q owner resume t).resumes_eq,
    (learns_closeBody withLocals q owner resume' (t ++ y)).resumes_eq]

/-- A statement that is not completed is completed by a text that it reaches
into. -/
theorem exists_visit_of_not_isComplete (withLocals : Bool) {t : List Char}
    (h : ∀ statement rest, scan t = some (statement, rest) → statement.isComplete = false) :
    ∃ other, ∀ q : Progress, ∃ v ∈ q.visits withLocals (t ++ other), ¬ v.Before other := by
  obtain ⟨other, hne, statement, hscan⟩ := exists_scan_append h
  refine ⟨other, fun q => ⟨⟨q, t ++ other, statement, []⟩, ?_, fun hbefore => hne ?_⟩⟩
  · rw [visits_of_scan hscan]
    exact List.mem_cons_self
  · exact List.suffix_nil.1 hbefore

theorem exists_visit_of_isComplete_eq_false (withLocals : Bool) {t rest : List Char}
    {statement : Statement (List Char)} (hscan : scan t = some (statement, rest))
    (h : statement.isComplete = false) :
    ∃ other, ∀ q : Progress, ∃ v ∈ q.visits withLocals (t ++ other), ¬ v.Before other := by
  refine exists_visit_of_not_isComplete withLocals fun own after hown => ?_
  rw [hscan] at hown
  cases hown
  exact h

/-- What reaches into another text after a complete statement does so after
the text of the statement. -/
theorem exists_visit_of_scan {t rest other : List Char} {statement : Statement (List Char)}
    (hscan : scan t = some (statement, rest)) (hcomplete : statement.isComplete = true)
    (h : ∀ move, Move.Extends other (p.move withLocals statement rest) move →
      ∃ v ∈ move.visits withLocals, ¬ v.Before other) (hsame : p.Same q) :
    ∃ v ∈ q.visits withLocals (t ++ other), ¬ v.Before other := by
  obtain ⟨v, hv, hnot⟩ := h _ (hsame.extends_move withLocals statement rest other)
  rw [visits_of_scan (scan_append_of_isComplete hscan hcomplete other)]
  exact ⟨v, List.mem_cons_of_mem _ hv, hnot⟩

/-- A body that its own text does not close is read from other texts as well:
behind some text, a statement ends that does not lie in front of it. -/
theorem exists_visit_of_not_ends {t : List Char} (h : p.ends withLocals t = false) :
    ∃ other, ∀ q, p.Same q → ∃ v ∈ q.visits withLocals (t ++ other), ¬ v.Before other := by
  induction p, t using read_induction withLocals with
  | cutOff p t hscan =>
      obtain ⟨other, hall⟩ := exists_visit_of_not_isComplete withLocals (t := t)
        fun own after hown => by rw [hscan] at hown; cases hown
      exact ⟨other, fun q _ => hall q⟩
  | leave p t statement rest p' hscan hmove =>
      rw [ends_of_scan hscan, hmove, Move.ends, Bool.and_true] at h
      obtain ⟨other, hall⟩ := exists_visit_of_isComplete_eq_false withLocals hscan h
      exact ⟨other, fun q _ => hall q⟩
  | goOn p t statement rest p' next hscan hmove ih =>
      rw [ends_of_scan hscan, hmove, Bool.and_eq_false_iff] at h
      cases hcomplete : statement.isComplete with
      | false =>
          obtain ⟨other, hall⟩ := exists_visit_of_isComplete_eq_false withLocals hscan hcomplete
          exact ⟨other, fun q _ => hall q⟩
      | true =>
          obtain ⟨other, hall⟩ := ih (h.resolve_left (by simp [hcomplete]))
          refine ⟨other, fun q => exists_visit_of_scan hscan hcomplete fun move hmoves => ?_⟩
          rw [hmove] at hmoves
          cases hmoves with
          | goOn hnext => exact hall _ hnext
  | enter p t statement rest p' owner body hscan hmove ihbody ihrest =>
      rw [ends_of_scan hscan, hmove, Move.ends, Bool.and_eq_false_iff, Bool.and_eq_false_iff] at h
      cases hcomplete : statement.isComplete with
      | false =>
          obtain ⟨other, hall⟩ := exists_visit_of_isComplete_eq_false withLocals hscan hcomplete
          exact ⟨other, fun q _ => hall q⟩
      | true =>
          have hinside := h.resolve_left (by simp [hcomplete])
          -- The text after the body is reached if the body is closed.
          cases hbody : (p'.openBody rest owner).ends withLocals body with
          | false =>
              obtain ⟨other, hall⟩ := ihbody hbody
              refine ⟨other, fun q => exists_visit_of_scan hscan hcomplete fun move hmoves => ?_⟩
              rw [hmove] at hmoves
              cases hmoves with
              | enter hopen =>
                  obtain ⟨v, hv, hnot⟩ := hall _ (hopen.openBody owner rest (rest ++ other))
                  exact ⟨v, List.mem_append_left _ hv, hnot⟩
          | true =>
              obtain ⟨other, hall⟩ := ihrest (hinside.resolve_left (by simp [hbody]))
              refine ⟨other, fun q => exists_visit_of_scan hscan hcomplete fun move hmoves => ?_⟩
              rw [hmove] at hmoves
              cases hmoves with
              | enter hopen =>
                  have hread := read_append hbody
                    (hopen.openBody owner rest (rest ++ other)) other
                  obtain ⟨v, hv, hnot⟩ := hall _ (hread.same.closeBody owner)
                  exact ⟨v, List.mem_append_right _ hv, hnot⟩

end

end Progress

/-! ## Bodies -/

section

variable {text rest body after : List Char} {statement : Statement (List Char)}

/-- A statement with a block that is closed is found in front of every other
text, with the same block. -/
theorem scan_block_append {inner : List Char} (hscan : scan text = some (statement, rest))
    (hblock : statement.ending = .block body after) (hinner : body = inner ++ rest)
    (hclosed : statement.isComplete = true) : ∃ before, text = before ++ rest ∧
      ∀ other, scan (before ++ other) =
        some (⟨statement.tokens, .block (inner ++ other) other⟩, other) := by
  obtain ⟨before, rfl⟩ := scan_suffix hscan
  obtain ⟨own, left, _, hall⟩ := scan_append hscan hclosed (Nat.le_refl _)
  have hrest := hall rest
  rw [hscan, Option.some.injEq, Prod.mk.injEq] at hrest
  obtain ⟨hown, hleft⟩ := hrest
  obtain rfl : left = [] := List.self_eq_append_left.1 hleft
  refine ⟨before, rfl, fun other => ?_⟩
  rw [hall other, List.nil_append]
  have hafter := after_eq_of_scan hscan hblock
  obtain ⟨tokens, ending⟩ := own
  subst hown
  cases ending with
  | block b a =>
      simp only [Statement.append, Statement.map, Ending.map, Ending.block.injEq] at hblock ⊢
      obtain ⟨hb, ha⟩ := hblock
      obtain rfl : a = [] := List.self_eq_append_left.1 (hafter.symm.trans ha.symm)
      obtain rfl : b = inner := List.append_cancel_right (hb.trans hinner)
      rfl
  | semicolon => cases hblock
  | closeBrace => cases hblock
  | label => cases hblock
  | endOfText => cases hblock

/-- **A body is read from its own text if that closes it.**  Let a statement
with a block be found, whose text `inner` reaches up to its closing brace, or
to the end if it is not closed.

1. If the block is closed, the statement has it in front of every other text.
2. Reading `inner` comes to the brace that ends the body exactly if all that is
   read in the body lies in `inner`, whatever follows.
3. Then the same comes of the body, whatever follows: the record of its type,
   or its method with the variables. -/
theorem reads_own_text_iff (withLocals : Bool) (hscan : scan text = some (statement, rest))
    (hblock : statement.ending = .block body after) : ∃ inner, body = inner ++ rest ∧
      (statement.isComplete = true → ∃ before, text = before ++ rest ∧ ∀ other,
        scan (before ++ other) = some (⟨statement.tokens, .block (inner ++ other) other⟩, other)) ∧
      ∀ (q : Progress) (owner : Progress.Owner),
        ((q.openBody rest owner).ends withLocals inner = true ↔
          ∀ other, ∀ v ∈ (q.openBody other owner).visits withLocals (inner ++ other),
            v.text <:+ inner ++ other ∧ other <:+ v.rest) ∧
        ((q.openBody rest owner).ends withLocals inner = true → ∀ other,
          ((q.openBody other owner).read withLocals (inner ++ other)).closeBody owner =
            ((q.openBody rest owner).read withLocals body).closeBody owner) := by
  obtain ⟨inner, hinner⟩ := suffix_body_of_scan hscan hblock
  refine ⟨inner, hinner.symm, scan_block_append hscan hblock hinner.symm, fun q owner =>
    ⟨⟨fun hends other v hv => ?_, fun hall => ?_⟩, fun hends other => ?_⟩⟩
  · have hsame := (Progress.Same.refl q).openBody owner rest other
    exact ⟨(Progress.scan_of_mem_visits hv).1, (Progress.read_append hends hsame other).before v hv⟩
  · cases hends : (q.openBody rest owner).ends withLocals inner with
    | true => rfl
    | false =>
        obtain ⟨other, hvisits⟩ := Progress.exists_visit_of_not_ends hends
        obtain ⟨v, hv, hnot⟩ := hvisits _ ((Progress.Same.refl q).openBody owner rest other)
        exact absurd (hall other v hv).2 hnot
  · rw [Progress.closeBody_read_append hends, ← hinner, Progress.closeBody_read_append hends]

end

/-- A method with a variable, and a field after it. -/
def counterText : String := "int m() \x7b int n; \x7d int k; \x7d"

/-- The method of `counterText`. -/
def counterMethod : Progress.Owner :=
  .method ⟨.declare .packageAccess "m" (some "int") false false, [], []⟩

theorem reads_own_text_iff_counter :
    scan counterText.toList = some (⟨["int", "m", "(", ")"],
      .block " int n; \x7d int k; \x7d".toList " int k; \x7d".toList⟩, " int k; \x7d".toList) ∧
    (∃ before, ∀ other, scan (before ++ other) = some (⟨["int", "m", "(", ")"],
      .block (" int n; \x7d".toList ++ other) other⟩, other)) ∧
    (Progress.start.openBody " int k; \x7d".toList counterMethod).ends true
      " int n; \x7d".toList = true ∧
    ∀ other, ∀ v ∈ (Progress.start.openBody other counterMethod).visits true
        (" int n; \x7d".toList ++ other),
      v.text <:+ " int n; \x7d".toList ++ other ∧ other <:+ v.rest := by
  have hscan : scan counterText.toList = some (⟨["int", "m", "(", ")"],
      .block " int n; \x7d int k; \x7d".toList " int k; \x7d".toList⟩, " int k; \x7d".toList) := by
    decide +kernel
  obtain ⟨inner, hinner, hclosed, hbody⟩ := reads_own_text_iff true hscan rfl
  have hcancel : " int n; \x7d".toList ++ " int k; \x7d".toList =
      inner ++ " int k; \x7d".toList := hinner
  obtain rfl : " int n; \x7d".toList = inner := List.append_cancel_right hcancel
  have hends : (Progress.start.openBody " int k; \x7d".toList counterMethod).ends true
      " int n; \x7d".toList = true := by decide +kernel
  obtain ⟨before, _, hfound⟩ := hclosed (by decide +kernel)
  exact ⟨hscan, ⟨before, hfound⟩, hends, (hbody .start counterMethod).1.1 hends⟩

/-- The body of a method that returns a value behind an equals sign in
brackets. -/
def indexedBody : String := " return t[i == 0 ? 1 : 2]; \x7d"

/-- The variables of the methods of a class, which has a method with that
body and some text after it. -/
def indexedLocals (rest : String) : List (List (List Variable)) :=
  (outline true ("class A \x7b int m() \x7b" ++ indexedBody ++ rest)).map fun record =>
    record.methods.map Method.locals

/-- What follows the block of a method may leave a variable in it. -/
theorem not_own_text_indexed :
    (∀ rest ∈ [" \x7d", " int q = x[new B() \x7b int a; int b; \x7d.b]; \x7d"],
      scan ("int m() \x7b" ++ indexedBody ++ rest).toList = some (⟨["int", "m", "(", ")"],
        .block (indexedBody ++ rest).toList rest.toList⟩, rest.toList)) ∧
    indexedLocals " \x7d" = [[[]]] ∧
      indexedLocals " int q = x[new B() \x7b int a; int b; \x7d.b]; \x7d" =
        [[[⟨"b", some "int", false⟩]]] := by
  decide +kernel

end JavaOutline
