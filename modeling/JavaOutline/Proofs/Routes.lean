import JavaOutline.Proofs.Annotations
import JavaOutline.Proofs.Registering
import JavaOutline.Proofs.Restoring

/-!
# JavaOutline.Proofs.Routes

Texts that may stand for each other at some place of a longer text.

It is enough that the two leave reading at the same, from wherever it stands in
a body of the kind that they are in, and that passing over braces does
(`Exchangeable`).  A text in front of them that is made of whole statements
is a `Route`: it opens and closes bodies, and at its end some are open.  Reading
the two longer texts stays together along the route, also where a body is
passed over that the place is in (`Exchangeable.same_read`), so they are read
into the same registry (`Exchangeable.readText_eq`).
-/

namespace JavaOutline

open Text

/-! ## Routes -/

/-- Where a statement stands inside bodies, innermost first. -/
def levelOf (levels : List Level) : Level := levels.head?.getD .file

/-- Where the statements in the block of a statement stand. -/
def levelInside (level : Level) (tokens : List String) : Level :=
  match (Reading.ofTokens level tokens).declaration with
  | .type _ => .typeBody
  | _ => .methodBody

/-- A text of whole statements.  Inside the bodies of the first list, innermost
first, it leads to a place inside those of the second. -/
inductive Route : List Level → List Char → List Level → Prop
  | stop (levels : List Level) : Route levels [] levels
  /-- Blanks and comments. -/
  | gap {levels goal : List Level} {gap text : List Char} (hgap : Gap gap)
      (h : Route levels text goal) : Route levels (gap ++ text) goal
  | statement {levels goal : List Level} {w text : List Char} {tokens : List String}
      {ending : Ending (List Char)} (hending : ending = .semicolon ∨ ending = .label)
      (hpassed : Passed w) (hscan : ∀ q, scan (w ++ q) = some (⟨tokens, ending⟩, q))
      (h : Route levels text goal) : Route levels (w ++ text) goal
  /-- A statement up to its block, and the text inside. -/
  | block {levels goal : List Level} {w text : List Char} {tokens : List String}
      (hpassed : PassedUpTo '\x7b' w)
      (hscan : ∀ q, scan (w ++ '\x7b' :: q) =
        some (⟨tokens, .block q (afterBracket '\x7b' '\x7d' 0 q)⟩, afterBracket '\x7b' '\x7d' 0 q))
      (h : Route (levelInside (levelOf levels) tokens :: levels) text goal) :
      Route levels (w ++ '\x7b' :: text) goal
  /-- The end of a block. -/
  | closeBrace {level : Level} {levels goal : List Level} {w text : List Char}
      {tokens : List String} (hpassed : PassedUpTo '\x7d' w)
      (hscan : ∀ q, scan (w ++ '\x7d' :: q) = some (⟨tokens, .closeBrace⟩, q))
      (h : Route levels text goal) : Route (level :: levels) (w ++ '\x7d' :: text) goal

/-! ## Where reading stands -/

namespace Nesting

variable {place : Type} {n : Nesting place}

/-- The kind of the innermost body. -/
def kind? (n : Nesting place) : Option BodyKind := n.frames.head?.map Frame.kind

@[simp] theorem kind?_push (n : Nesting place) (frame : Frame place) :
    (n.push frame).kind? = some frame.kind := rfl

@[simp] theorem kind?_mapScope (f : Scope → Scope) (n : Nesting place) :
    (n.mapScope f).kind? = n.kind? := by
  obtain ⟨file, frames⟩ := n
  cases frames <;> rfl

@[simp] theorem kind?_mapRecord (f : TypeRecord → TypeRecord) (n : Nesting place) :
    (n.mapRecord f).kind? = n.kind? := by
  obtain ⟨file, frames⟩ := n
  cases frames <;> rfl

@[simp] theorem kind?_mapEnclosing (f : TypeRecord → TypeRecord) (n : Nesting place) :
    (n.mapEnclosing f).kind? = n.kind? := by
  obtain ⟨file, frames⟩ := n
  match frames with
  | [] => rfl
  | ⟨.typeBody, _, _, _⟩ :: _ => rfl
  | ⟨.methodBody _, _, _, _⟩ :: _ => rfl

/-- The innermost body says where the next statement stands. -/
theorem level_eq_of_kind?_eq {m : Nesting place} (h : n.kind? = m.kind?) : n.level = m.level := by
  obtain ⟨file, frames⟩ := n
  obtain ⟨file', frames'⟩ := m
  match frames, frames', h with
  | [], [], _ => rfl
  | ⟨.typeBody, _, _, _⟩ :: _, ⟨.typeBody, _, _, _⟩ :: _, _ => rfl
  | ⟨.methodBody _, _, _, _⟩ :: _, ⟨.methodBody _, _, _, _⟩ :: _, _ => rfl

/-- Only the blocks of a method body are entered. -/
theorem exists_kind?_of_level (h : n.level = .methodBody) :
    ∃ depth, n.kind? = some (.methodBody depth) := by
  obtain ⟨file, frames⟩ := n
  match frames with
  | ⟨.methodBody depth, _, _, _⟩ :: _ => exact ⟨depth, rfl⟩

theorem kind?_enterBlock {depth : Nat} (h : n.kind? = some (.methodBody depth)) :
    n.enterBlock.kind? = some (.methodBody (depth + 1)) := by
  obtain ⟨file, frames⟩ := n
  match frames, h with
  | ⟨.methodBody depth, _, _, _⟩ :: _, rfl => rfl

theorem kind?_of_leaveBlock? {m : Nesting place} (h : n.leaveBlock? = some m) :
    ∃ depth, n.kind? = some (.methodBody (depth + 1)) ∧ m.kind? = some (.methodBody depth) := by
  obtain ⟨file, frames⟩ := n
  match frames with
  | [] => cases h
  | ⟨.typeBody, _, _, _⟩ :: _ => cases h
  | ⟨.methodBody 0, _, _, _⟩ :: _ => cases h
  | ⟨.methodBody (depth + 1), _, _, _⟩ :: _ => cases h; exact ⟨depth, rfl, rfl⟩

end Nesting

/-- Whether the innermost body is of the kind that levels say, the blocks of a
method body coming before it. -/
def AgreesWith (levels : List Level) : Option BodyKind → Prop
  | none => levelOf levels = .file
  | some .typeBody => levelOf levels = .typeBody
  | some (.methodBody depth) => List.replicate (depth + 1) Level.methodBody <+: levels

theorem AgreesWith.level_eq {levels : List Level} {place : Type} {n : Nesting place}
    (h : AgreesWith levels n.kind?) : n.level = levelOf levels := by
  obtain ⟨file, frames⟩ := n
  match frames with
  | [] => exact h.symm
  | ⟨.typeBody, _, _, _⟩ :: _ => exact h.symm
  | ⟨.methodBody depth, _, _, _⟩ :: _ =>
      obtain ⟨inner, rfl⟩ := h
      rfl

/-- A block of a method body is one more level. -/
theorem AgreesWith.enterBlock {levels : List Level} {place : Type} {n : Nesting place}
    (h : AgreesWith levels n.kind?) (hlevel : n.level = .methodBody) :
    AgreesWith (.methodBody :: levels) n.enterBlock.kind? := by
  obtain ⟨depth, hdepth⟩ := Nesting.exists_kind?_of_level hlevel
  rw [hdepth] at h
  rw [Nesting.kind?_enterBlock hdepth]
  exact List.cons_prefix_cons.2 ⟨rfl, h⟩

namespace Progress

theorem kind?_apply (p : Progress) (clause : Clause) :
    (p.apply clause).nesting.kind? = p.nesting.kind? := by
  cases clause <;> exact Nesting.kind?_mapScope _ _

theorem kind?_foldl_apply (p : Progress) (clauses : List Clause) :
    (clauses.foldl apply p).nesting.kind? = p.nesting.kind? := by
  induction clauses generalizing p with
  | nil => rfl
  | cons clause clauses ih => exact (ih _).trans (p.kind?_apply clause)

theorem kind?_declare (p : Progress) (declaration : Declaration) :
    (p.declare declaration).nesting.kind? = p.nesting.kind? := by
  cases declaration with
  | nothing => rfl
  | type header => rfl
  | fields members => exact Nesting.kind?_mapRecord _ _
  | method method => exact Nesting.kind?_mapRecord _ _

theorem kind?_closeType_read (withLocals : Bool) (p : Progress) (header : TypeHeader)
    (resume body : List Char) :
    ((p.openType header resume).read withLocals body).closeType.nesting.kind? =
      p.nesting.kind? := by
  obtain ⟨records, hclosed⟩ := closeType_read withLocals p header resume body
  rw [hclosed]
  exact Nesting.kind?_mapEnclosing _ _

theorem kind?_closeMethod_read (withLocals : Bool) (p : Progress) (method : Method)
    (resume body : List Char) :
    (((p.openMethod resume).read withLocals body).closeMethod method).nesting.kind? =
      p.nesting.kind? := by
  obtain ⟨records, locals, _, hclosed⟩ := closeMethod_read withLocals p method resume body
  rw [hclosed, kind?_declare]
  exact Nesting.kind?_mapEnclosing _ _

/-- Reading depends on the statements of a text only. -/
theorem read_gap_append (withLocals : Bool) (p : Progress) {gap : List Char} (hgap : Gap gap)
    (text : List Char) : p.read withLocals (gap ++ text) = p.read withLocals text := by
  have hscan : scan (gap ++ text) = scan text := by rw [scan, scan, hgap.skipGaps_append]
  cases h : scan text with
  | none => rw [read_of_scan_eq_none h, read_of_scan_eq_none (hscan.trans h)]
  | some scanned => rw [read_of_scan h, read_of_scan (hscan.trans h)]

end Progress

/-! ## Texts that may stand for each other -/

/-- Texts that may stand for each other in a body of some kind: a reader that
passes over braces goes on alike, and so does reading. -/
structure Exchangeable (level : Level) (x y : List Char) : Prop where
  afterBracket_eq : ∀ depth,
    afterBracket '\x7b' '\x7d' depth x = afterBracket '\x7b' '\x7d' depth y
  read_eq : ∀ (withLocals : Bool) (p : Progress), p.nesting.level = level →
    p.read withLocals x = p.read withLocals y

/-- Statements that say the same, end alike and leave the same text may stand for
each other.  In the body of a method they have to begin alike too, since a block
is not entered after `new`. -/
theorem Exchangeable.of_scan {level : Level} {x y : List Char} {tokens tokens' : List String}
    {ending : Ending (List Char)} {rest : List Char}
    (hbraces : ∀ depth, afterBracket '\x7b' '\x7d' depth x = afterBracket '\x7b' '\x7d' depth y)
    (hx : scan x = some (⟨tokens, ending⟩, rest)) (hy : scan y = some (⟨tokens', ending⟩, rest))
    (hreading : Reading.ofTokens level tokens = Reading.ofTokens level tokens')
    (hfirst : level = .methodBody → tokens.head? = tokens'.head?) : Exchangeable level x y := by
  refine ⟨hbraces, fun withLocals p hlevel => ?_⟩
  have henters : ∀ declaration clauses,
      ((List.foldl Progress.apply p clauses).declare declaration).entersBlock tokens =
        ((List.foldl Progress.apply p clauses).declare declaration).entersBlock tokens' := by
    intro declaration clauses
    have hkind := (Progress.kind?_declare (List.foldl Progress.apply p clauses) declaration).trans
      (p.kind?_foldl_apply clauses)
    rw [Progress.entersBlock, Progress.entersBlock, Nesting.level_eq_of_kind?_eq hkind, hlevel]
    cases level with
    | file => rfl
    | typeBody => rfl
    | methodBody => rw [hfirst rfl]
  rw [Progress.read_of_scan hx, Progress.read_of_scan hy, hlevel, hreading]
  cases ending with
  | block body after =>
      simp only [Progress.readAfter, henters]
  | closeBrace => rfl
  | semicolon => rfl
  | label => rfl
  | endOfText => rfl

/-- Texts that are the same, or have `x` and `y` after a route. -/
inductive Exchanged (x y : List Char) (goal : List Level) :
    List Level → List Char → List Char → Prop
  | same (levels : List Level) (text : List Char) : Exchanged x y goal levels text text
  | route {levels : List Level} {text : List Char} (h : Route levels text goal) :
      Exchanged x y goal levels (text ++ x) (text ++ y)

namespace Exchangeable

variable {level : Level} {x y : List Char} {goal : List Level}

/-- After a brace that is closed, the route goes on in the bodies around, or
the place has been passed over. -/
theorem exchanged_afterBracket (h : Exchangeable level x y) {inner outer : List Level}
    {depth : Nat} (hdepth : inner.length = depth + 1) {text : List Char}
    (hroute : Route (inner ++ outer) text goal) :
    Exchanged x y goal outer (afterBracket '\x7b' '\x7d' depth (text ++ x))
      (afterBracket '\x7b' '\x7d' depth (text ++ y)) := by
  have hbrace : ('\x7b', '\x7d') ∈ bracketKinds := by decide
  generalize hlevels : inner ++ outer = levels at hroute
  induction hroute generalizing inner depth with
  | stop levels =>
      rw [List.nil_append, List.nil_append, h.afterBracket_eq]
      exact .same _ _
  | gap hgap _ ih =>
      rw [List.append_assoc, List.append_assoc, hgap.passed, hgap.passed]
      exact ih hdepth hlevels
  | statement _ hpassed _ _ ih =>
      rw [List.append_assoc, List.append_assoc, hpassed, hpassed]
      exact ih hdepth hlevels
  | @block levels _ w text tokens hpassed _ _ ih =>
      rw [List.append_assoc, List.append_assoc, List.cons_append, List.cons_append, hpassed,
        hpassed, afterBracket_opening hbrace, afterBracket_opening hbrace]
      have hlength : (levelInside (levelOf levels) tokens :: inner).length = depth + 2 := by
        simp [hdepth]
      exact ih hlength (by rw [← hlevels, List.cons_append])
  | @closeBrace first levels _ w text tokens hpassed _ hrest ih =>
      rw [List.append_assoc, List.append_assoc, List.cons_append, List.cons_append, hpassed,
        hpassed]
      obtain ⟨last, inner, rfl⟩ := List.exists_cons_of_length_eq_add_one hdepth
      obtain ⟨rfl, htail⟩ := List.cons.inj hlevels
      rw [List.length_cons, Nat.add_right_cancel_iff] at hdepth
      cases depth with
      | zero =>
          obtain rfl := List.length_eq_zero_iff.1 hdepth
          obtain rfl : outer = levels := htail
          rw [afterBracket_zero_closing hbrace, afterBracket_zero_closing hbrace]
          exact .route hrest
      | succ depth =>
          rw [afterBracket_closing hbrace, afterBracket_closing hbrace]
          exact ih hdepth htail

end Exchangeable

section

open Progress

variable {p q : Progress}

/-- Two readings stay together on one text. -/
theorem Progress.Same.read (h : Same p q) (withLocals : Bool) (text : List Char) :
    Same (p.read withLocals text) (q.read withLocals text) := by
  have hself : KeptByScan (· = ·) := by
    rintro s t rfl
    cases scan s with
    | none => exact .none
    | some scanned => exact .some rfl (.refl (fun _ => rfl) _) rfl
  exact hself.same_read h rfl withLocals

/-- Two readings stay together at a block that declares nothing, which is searched
or passed over, if they do in it and after it. -/
theorem Progress.Same.readBlock {withLocals : Bool} {s t rest rest' : List Char} (h : Same p q)
    (tokens : List String)
    (hsearched : p.nesting.level = .methodBody →
      Same (({ p with nesting := p.nesting.enterBlock } : Progress).read withLocals s)
        (({ q with nesting := q.nesting.enterBlock } : Progress).read withLocals t))
    (hpassed : Same (p.read withLocals rest) (q.read withLocals rest')) :
    Same (if p.entersBlock tokens then
          ({ p with nesting := p.nesting.enterBlock } : Progress).read withLocals s
        else p.read withLocals rest)
      (if q.entersBlock tokens then
          ({ q with nesting := q.nesting.enterBlock } : Progress).read withLocals t
        else q.read withLocals rest') := by
  rw [← h.entersBlock_eq tokens]
  split
  · next henters =>
      simp only [entersBlock, Bool.and_eq_true, beq_iff_eq] at henters
      exact hsearched henters.1
  · exact hpassed

namespace Exchangeable

variable {level : Level} {x y : List Char} {goal levels : List Level} {text : List Char}
  {withLocals : Bool} {length : Nat}

/-- Readings of texts shorter than `length` stay together along a route. -/
def SameBelow (x y : List Char) (goal : List Level) (withLocals : Bool) (length : Nat) : Prop :=
  ∀ {levels : List Level} {s t : List Char} {p q : Progress}, s.length < length →
    Exchanged x y goal levels s t → Same p q → AgreesWith levels p.nesting.kind? →
      Same (p.read withLocals s) (q.read withLocals t)

/-- Two readings stay together at a block that the route goes into, if they do on
shorter texts. -/
theorem same_readAfter_block (h : Exchangeable level x y)
    (hread : SameBelow x y goal withLocals length) (hsame : Same p q)
    (hagrees : AgreesWith levels p.nesting.kind?) (tokens : List String)
    (hroute : Route (levelInside (levelOf levels) tokens :: levels) text goal)
    (hbody : (text ++ x).length < length)
    (hrest : (afterBracket '\x7b' '\x7d' 0 (text ++ x)).length < length)
    (after after' : List Char) :
    Same (p.readAfter withLocals (Reading.ofTokens (levelOf levels) tokens).declaration tokens
        (.block (text ++ x) after) (afterBracket '\x7b' '\x7d' 0 (text ++ x)))
      (q.readAfter withLocals (Reading.ofTokens (levelOf levels) tokens).declaration tokens
        (.block (text ++ y) after') (afterBracket '\x7b' '\x7d' 0 (text ++ y))) := by
  have hone : [levelInside (levelOf levels) tokens].length = 0 + 1 := rfl
  have hgoesOn := h.exchanged_afterBracket hone hroute
  have hinside : Exchanged x y goal (levelInside (levelOf levels) tokens :: levels) (text ++ x)
      (text ++ y) := .route hroute
  rw [levelInside] at hinside
  generalize afterBracket '\x7b' '\x7d' 0 (text ++ x) = rest at hgoesOn hrest ⊢
  generalize afterBracket '\x7b' '\x7d' 0 (text ++ y) = rest' at hgoesOn ⊢
  generalize (Reading.ofTokens (levelOf levels) tokens).declaration = declaration at hinside ⊢
  have hplain (hblock : Exchanged x y goal (.methodBody :: levels) (text ++ x) (text ++ y)) :=
    have hdeclared := hsame.declare declaration
    have hagreed := (p.kind?_declare declaration).symm ▸ hagrees
    hdeclared.readBlock tokens
      (fun hlevel => hread hbody hblock hdeclared.enterBlock (hagreed.enterBlock hlevel))
      (hread hrest hgoesOn hdeclared hagreed)
  cases declaration with
  | type header =>
      have hbodies := hread hbody hinside (hsame.openType header rest rest') rfl
      refine hread hrest hgoesOn hbodies.closeType ?_
      rwa [kind?_closeType_read]
  | nothing => exact hplain hinside
  | fields members => exact hplain hinside
  | method method =>
      cases withLocals with
      | false => exact hplain hinside
      | true =>
          have hbodies := hread hbody hinside (hsame.openMethod rest rest')
            (List.cons_prefix_cons.2 ⟨rfl, List.nil_prefix⟩)
          refine hread hrest hgoesOn (hbodies.closeMethod method) ?_
          rwa [kind?_closeMethod_read]

/-- Two readings stay together at the end of a block, which both leave or both end at. -/
theorem same_readAfter_closeBrace (hread : SameBelow x y goal withLocals length) {inner : Level}
    (hsame : Same p q) (hagrees : AgreesWith (inner :: levels) p.nesting.kind?)
    (declaration : Declaration) (tokens : List String) (hroute : Route levels text goal)
    (hshort : (text ++ x).length < length) :
    Same (p.readAfter withLocals declaration tokens .closeBrace (text ++ x))
      (q.readAfter withLocals declaration tokens .closeBrace (text ++ y)) := by
  have hdeclared := hsame.declare declaration
  simp only [readAfter]
  obtain ⟨hp, hq⟩ | ⟨n, m, hp, hq, hleft⟩ := hdeclared.leaveBlock
  · rw [hp, hq]
    exact hdeclared
  · obtain ⟨depth, hbefore, hafter⟩ := Nesting.kind?_of_leaveBlock? hp
    rw [kind?_declare] at hbefore
    rw [hbefore] at hagrees
    rw [hp, hq]
    refine hread hshort (.route hroute) hleft ?_
    rw [hafter]
    exact (List.cons_prefix_cons.1 hagrees).2

/-- One statement further along a route, or at its end. -/
theorem same_read_route (h : Exchangeable level x y) (hgoal : levelOf goal = level)
    (hroute : Route levels text goal)
    (hread : SameBelow x y goal withLocals (text ++ x).length) (hsame : Same p q)
    (hagrees : AgreesWith levels p.nesting.kind?) :
    Same (p.read withLocals (text ++ x)) (q.read withLocals (text ++ y)) := by
  have hlevel := hagrees.level_eq
  have hclauses (tokens : List String) := hsame.foldl_apply
    (Reading.ofTokens p.nesting.level tokens).clauses
  have hagreed (tokens : List String) := (kind?_foldl_apply p
    (Reading.ofTokens p.nesting.level tokens).clauses).symm ▸ hagrees
  cases hroute with
  | stop =>
      rw [List.nil_append, List.nil_append, h.read_eq withLocals p (hlevel.trans hgoal)]
      exact hsame.read withLocals y
  | gap hgap hrest =>
      simp only [List.append_assoc] at hread ⊢
      rw [p.read_gap_append withLocals hgap, q.read_gap_append withLocals hgap]
      refine hread ?_ (.route hrest) hsame hagrees
      obtain ⟨c, rest, rfl, _⟩ := hgap.begins
      simp only [List.cons_append, List.length_cons, List.length_append]
      omega
  | @statement _ _ w text tokens ending hending _ hscan hrest =>
      simp only [List.append_assoc] at hread ⊢
      have hnext := hread (length_lt_of_scan (hscan _)) (.route hrest)
        ((hclauses tokens).declare (Reading.ofTokens p.nesting.level tokens).declaration)
        ((kind?_declare ..).symm ▸ hagreed tokens)
      rw [read_of_scan (hscan _), read_of_scan (hscan _), ← hsame.level_eq]
      rcases hending with rfl | rfl <;> exact hnext
  | @block _ _ w text tokens _ hscan hrest =>
      simp only [List.append_assoc, List.cons_append] at hread ⊢
      have hbody := length_body_lt_of_scan (hscan (text ++ x)) rfl
      have hshort := length_lt_of_scan (hscan (text ++ x))
      rw [read_of_scan (hscan _), read_of_scan (hscan _), ← hsame.level_eq, hlevel]
      exact h.same_readAfter_block hread (hlevel ▸ hclauses tokens) (hlevel ▸ hagreed tokens)
        tokens hrest hbody hshort _ _
  | @closeBrace _ _ _ w text tokens _ hscan hrest =>
      simp only [List.append_assoc, List.cons_append] at hread ⊢
      rw [read_of_scan (hscan _), read_of_scan (hscan _), ← hsame.level_eq]
      exact same_readAfter_closeBrace hread (hclauses tokens) (hagreed tokens) _ tokens hrest
        (length_lt_of_scan (hscan _))

/-- **Reading stays together along a route**, and after it. -/
theorem same_read (h : Exchangeable level x y) (hgoal : levelOf goal = level) {s t : List Char}
    (hst : Exchanged x y goal levels s t) (hsame : Same p q)
    (hagrees : AgreesWith levels p.nesting.kind?) :
    Same (p.read withLocals s) (q.read withLocals t) := by
  induction hlength : s.length using Nat.strongRecOn generalizing levels s t p q with
  | ind length ih =>
      subst hlength
      cases hst with
      | same => exact hsame.read withLocals s
      | route hroute =>
          exact h.same_read_route hgoal hroute
            (fun hshort hst hsame hagrees => ih _ hshort hst hsame hagrees rfl) hsame hagrees

/-- **Texts that may stand for each other are read into the same registry** at
the end of a route, with any annotations between the tokens of the whole
texts. -/
theorem readText_eq (h : Exchangeable level x y) (hroute : Route [] text goal)
    (hgoal : levelOf goal = level) {s t : String} (hs : Annotated .front (text ++ x) s.toList)
    (ht : Annotated .front (text ++ y) t.toList) (r : Registry) (withLocals : Bool) :
    r.readText withLocals s = r.readText withLocals t := by
  have hstart : Same .start .start := ⟨rfl, rfl⟩
  have hannotated : ∀ {plain : List Char} {u : String}, Annotated .front plain u.toList →
      outline withLocals u = (Progress.start.read withLocals plain).records := fun hu =>
    ( Annotated.keptByScan.same_read hstart hu withLocals).records.symm
  have hread : Same (Progress.start.read withLocals (text ++ x))
      (Progress.start.read withLocals (text ++ y)) :=
    h.same_read hgoal (.route hroute) hstart rfl
  rw [Registry.readText_eq, Registry.readText_eq, hannotated hs, hannotated ht, hread.records]

end Exchangeable

end

end JavaOutline
