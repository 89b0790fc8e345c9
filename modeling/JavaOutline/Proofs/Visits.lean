import JavaOutline.Proofs.Lexical.Ends
import JavaOutline.Proofs.Reading

/-!
# JavaOutline.Proofs.Visits

The statements that reading comes to, one after the other.

`Progress.move` says how reading goes on after a statement: the innermost
body ends, the next statement is read, or a body of its own is entered,
after which reading goes on behind it.  Everything about reading is proved
along its moves (`read_of_scan_of_move`), of which there are three.

`Progress.visits` lists the statements of a text with what had been read
before them, those in bodies of their own included.  It is made of the same
moves, so it says which statements `Progress.read` reads.
-/

namespace JavaOutline

namespace Progress

/-! ## Bodies of their own -/

/-- What has a body that is read with a frame of its own. -/
inductive Owner where
  | type (header : TypeHeader)
  | method (method : Method)
  deriving DecidableEq

/-- What is declared with a body that is read. -/
def ownerOf? : Bool → Declaration → Option Owner
  | _, .type header => some (.type header)
  | true, .method method => some (.method method)
  | _, _ => none

/-- Types are declared with a body that is read, whether or not variables are
wanted. -/
theorem ownerOf?_eq_some_type_iff {withLocals : Bool} {declaration : Declaration}
    {header : TypeHeader} :
    ownerOf? withLocals declaration = some (.type header) ↔ declaration = .type header := by
  cases declaration <;> cases withLocals <;> simp [ownerOf?]

/-- Enter the body of a type or a method. -/
def openBody (p : Progress) (resume : List Char) : Owner → Progress
  | .type header => p.openType header resume
  | .method _ => p.openMethod resume

/-- Leave the body of a type or a method. -/
def closeBody (p : Progress) : Owner → Progress
  | .type _ => p.closeType
  | .method method => p.closeMethod method

/-! ## Moves -/

/-- How reading goes on after a statement. -/
inductive Move where
  /-- The innermost body has ended. -/
  | leave (p : Progress)
  /-- The next statement is read, in the same body. -/
  | goOn (p : Progress) (text : List Char)
  /-- A body is read, and then the text after it. -/
  | enter (p : Progress) (owner : Owner) (body rest : List Char)

/-- What has been read when the move is made. -/
def Move.progress : Move → Progress
  | .leave p => p
  | .goOn p _ => p
  | .enter p _ _ _ => p

/-- How reading goes on after a statement, `q` being the progress to which
its clauses have led. -/
def moveAfter (withLocals : Bool) (q : Progress) (declaration : Declaration)
    (tokens : List String) (ending : Ending (List Char)) (rest : List Char) : Move :=
  let r := q.declare declaration
  match ending with
  | .block body _ =>
    match ownerOf? withLocals declaration with
    | some owner => .enter q owner body rest
    | none =>
      if r.entersBlock tokens then .goOn { r with nesting := r.nesting.enterBlock } body
      else .goOn r rest
  | .closeBrace =>
    match r.nesting.leaveBlock? with
    | some nesting => .goOn { r with nesting } rest
    | none => .leave r
  | _ => .goOn r rest

/-- How reading goes on after a statement. -/
def move (withLocals : Bool) (p : Progress) (statement : Statement (List Char))
    (rest : List Char) : Move :=
  let reading := Reading.ofTokens p.nesting.level statement.tokens
  moveAfter withLocals (reading.clauses.foldl apply p) reading.declaration statement.tokens
    statement.ending rest

/-- What reading on comes to. -/
def Move.finish (withLocals : Bool) : Move → Progress
  | .leave q => q
  | .goOn q text => q.read withLocals text
  | .enter q owner body rest =>
    (((q.openBody rest owner).read withLocals body).closeBody owner).read withLocals rest

theorem finish_moveAfter (withLocals : Bool) (q : Progress) (declaration : Declaration)
    (tokens : List String) (ending : Ending (List Char)) (rest : List Char) :
    (moveAfter withLocals q declaration tokens ending rest).finish withLocals =
      readAfter withLocals q declaration tokens ending rest := by
  cases ending with
  | block body after =>
      cases declaration with
      | nothing => simp only [moveAfter, readAfter, ownerOf?]; split <;> rfl
      | fields members => simp only [moveAfter, readAfter, ownerOf?]; split <;> rfl
      | type header => rfl
      | method method =>
          cases withLocals with
          | false => simp only [moveAfter, readAfter, ownerOf?]; split <;> rfl
          | true => rfl
  | closeBrace =>
      simp only [moveAfter, readAfter]
      cases (q.declare declaration).nesting.leaveBlock? <;> rfl
  | semicolon => rfl
  | label => rfl
  | endOfText => rfl

section

variable {withLocals : Bool} {p q : Progress} {text rest next body after : List Char}
  {statement : Statement (List Char)} {owner : Owner}

/-- Reading a text is reading on after its first statement. -/
theorem read_of_scan_of_move (h : scan text = some (statement, rest)) :
    p.read withLocals text = (p.move withLocals statement rest).finish withLocals := by
  rw [read_of_scan h, move, finish_moveAfter]

/-- The next statement stands after the last one or in its block. -/
theorem text_of_goOn (h : p.move withLocals statement rest = .goOn q next) :
    next = rest ∨ ∃ after, statement.ending = .block next after := by
  dsimp only [move, moveAfter] at h
  split at h
  · next hblock =>
      split at h
      · cases h
      · split at h
        · cases h; exact .inr ⟨_, hblock⟩
        · cases h; exact .inl rfl
  · split at h
    · cases h; exact .inl rfl
    · cases h
  · cases h; exact .inl rfl

/-- A body that is entered is the block of the statement. -/
theorem block_of_enter (h : p.move withLocals statement rest = .enter q owner body after) :
    after = rest ∧ ∃ after', statement.ending = .block body after' := by
  dsimp only [move, moveAfter] at h
  split at h
  · next hblock =>
      split at h
      · cases h; exact ⟨rfl, _, hblock⟩
      · split at h <;> cases h
  · split at h <;> cases h
  · cases h

/-- A body that is entered is that of what the statement declares. -/
theorem ownerOf?_of_enter (h : p.move withLocals statement rest = .enter q owner body after) :
    ownerOf? withLocals (Reading.ofTokens p.nesting.level statement.tokens).declaration =
      some owner := by
  dsimp only [move, moveAfter] at h
  split at h
  · split at h
    · next howner => cases h; exact howner
    · split at h <;> cases h
  · split at h <;> cases h
  · cases h

/-- A move applies clauses, declares something, and enters or leaves a
block; what these keep, it keeps. -/
theorem move_invariant {I : Progress → Prop}
    (apply : ∀ (q : Progress) (clause : Clause),
      clause ∈ (Reading.ofTokens p.nesting.level statement.tokens).clauses →
      I q → I (q.apply clause))
    (declare : ∀ (q : Progress) (declaration : Declaration),
      declaration = (Reading.ofTokens p.nesting.level statement.tokens).declaration →
      I q → I (q.declare declaration))
    (enterBlock : ∀ q : Progress, I q → I { q with nesting := q.nesting.enterBlock })
    (leaveBlock : ∀ (q : Progress) (n : Nesting (List Char)), q.nesting.leaveBlock? = some n →
      I q → I { q with nesting := n })
    (h : I p) : I (p.move withLocals statement rest).progress := by
  have happly : ∀ (clauses : List Clause) (q : Progress),
      clauses ⊆ (Reading.ofTokens p.nesting.level statement.tokens).clauses →
      I q → I (clauses.foldl Progress.apply q) := by
    intro clauses
    induction clauses with
    | nil => exact fun _ _ hq => hq
    | cons clause clauses ih =>
        intro q hsubset hq
        obtain ⟨hclause, hrest⟩ := List.cons_subset.1 hsubset
        exact ih _ hrest (apply q clause hclause hq)
  dsimp only [move, moveAfter]
  have hq := happly _ p (List.Subset.refl _) h
  have hr := declare _ _ rfl hq
  split
  · split
    · exact hq
    · split
      · exact enterBlock _ hr
      · exact hr
  · split
    · next hleave => exact leaveBlock _ _ hleave hr
    · exact hr
  · exact hr

/-- What is read next is shorter than the text of the statement. -/
theorem length_lt_of_goOn (hscan : scan text = some (statement, rest))
    (h : p.move withLocals statement rest = .goOn q next) : next.length < text.length := by
  rcases text_of_goOn h with rfl | ⟨after, hblock⟩
  · exact length_lt_of_scan hscan
  · exact length_body_lt_of_scan hscan hblock

/-- The text of a body is shorter than that of the statement before it, and
so is the text after it. -/
theorem length_lt_of_enter (hscan : scan text = some (statement, rest))
    (h : p.move withLocals statement rest = .enter q owner body after) :
    body.length < text.length ∧ after.length < text.length := by
  obtain ⟨rfl, _, hblock⟩ := block_of_enter h
  exact ⟨length_body_lt_of_scan hscan hblock, length_lt_of_scan hscan⟩

end

/-- What holds of a text that ends without a statement, and passes from
what is read after a statement to what is read from it on, holds of every
text. -/
theorem read_induction (withLocals : Bool) {motive : Progress → List Char → Prop}
    (cutOff : ∀ p text, scan text = none → motive p text)
    (leave : ∀ p text statement rest q, scan text = some (statement, rest) →
      p.move withLocals statement rest = .leave q → motive p text)
    (goOn : ∀ p text statement rest q next, scan text = some (statement, rest) →
      p.move withLocals statement rest = .goOn q next → motive q next → motive p text)
    (enter : ∀ p text statement rest q owner body, scan text = some (statement, rest) →
      p.move withLocals statement rest = .enter q owner body rest →
      motive (q.openBody rest owner) body →
      motive (((q.openBody rest owner).read withLocals body).closeBody owner) rest →
      motive p text)
    (p : Progress) (text : List Char) : motive p text := by
  induction hlength : text.length using Nat.strongRecOn generalizing p text with
  | ind length ih =>
    subst hlength
    cases hscan : scan text with
    | none => exact cutOff p text hscan
    | some read =>
        obtain ⟨statement, rest⟩ := read
        cases hmove : p.move withLocals statement rest with
        | leave q => exact leave p text statement rest q hscan hmove
        | goOn q next =>
            exact goOn p text statement rest q next hscan hmove
              (ih next.length (length_lt_of_goOn hscan hmove) q next rfl)
        | enter q owner body after =>
            obtain ⟨hbody, hafter⟩ := length_lt_of_enter hscan hmove
            obtain ⟨rfl, _⟩ := block_of_enter hmove
            exact enter p text statement after q owner body hscan hmove
              (ih body.length hbody _ body rfl) (ih after.length hafter _ after rfl)

/-! ## Visits -/

/-- A statement that is read, with what had been read before it. -/
structure Visit where
  progress : Progress
  /-- The text from the end of the last statement on. -/
  text : List Char
  statement : Statement (List Char)
  /-- The text after the statement. -/
  rest : List Char

/-- How reading goes on after a statement. -/
def Visit.move (withLocals : Bool) (v : Visit) : Move :=
  v.progress.move withLocals v.statement v.rest

/-- The statements that are read in a text, in this order, those in bodies
of their own included. -/
def visits (withLocals : Bool) (p : Progress) (text : List Char) : List Visit :=
  match _ : scan text with
  | none => []
  | some (statement, rest) =>
    ⟨p, text, statement, rest⟩ ::
      match _ : p.move withLocals statement rest with
      | .leave _ => []
      | .goOn q next => q.visits withLocals next
      | .enter q owner body after =>
        (q.openBody after owner).visits withLocals body ++
          (((q.openBody after owner).read withLocals body).closeBody owner).visits withLocals after
termination_by text.length
decreasing_by
  · exact length_lt_of_goOn ‹_› ‹_›
  · exact (length_lt_of_enter ‹_› ‹_›).1
  · exact (length_lt_of_enter ‹_› ‹_›).2

/-- The statements that are read after a statement. -/
def Move.visits (withLocals : Bool) : Move → List Visit
  | .leave _ => []
  | .goOn q text => q.visits withLocals text
  | .enter q owner body rest =>
    (q.openBody rest owner).visits withLocals body ++
      (((q.openBody rest owner).read withLocals body).closeBody owner).visits withLocals rest

section

variable {withLocals : Bool} {p : Progress} {text rest : List Char}
  {statement : Statement (List Char)}

theorem visits_of_scan_eq_none (h : scan text = none) : p.visits withLocals text = [] := by
  rw [visits]
  split
  · rfl
  · next h' => rw [h] at h'; cases h'

theorem visits_of_scan (h : scan text = some (statement, rest)) :
    p.visits withLocals text =
      ⟨p, text, statement, rest⟩ :: (p.move withLocals statement rest).visits withLocals := by
  rw [visits]
  split
  · next h' => rw [h] at h'; cases h'
  · next h' =>
      rw [h] at h'
      cases h'
      cases hmove : p.move withLocals statement rest <;> simp [Move.visits]

end

end Progress

end JavaOutline
