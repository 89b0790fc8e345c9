import JavaOutline.Proofs.Lexical.Steps

/-!
# JavaOutline.Proofs.ScannedAlike

Two texts that are scanned side by side.

A relation of texts is kept by scanning (`KeptByScan`) if the first statements of two
texts in the relation have the same tokens and endings of one kind, and the texts in and
after them are in the relation again.  For this it is enough to look at single steps
(`KeptByScan.of_step`).  A step at a boundary and a step at what may end a statement keep
every relation that is kept by what they pass over (`OpenStatement.boundary_alike`,
`AdvanceAlike.readEnding`).
-/

namespace JavaOutline

open Text

/-- Two endings of one kind, at blocks whose texts are related. -/
inductive EndingAlike (R : List Char → List Char → Prop) :
    Ending (List Char) → Ending (List Char) → Prop
  | semicolon : EndingAlike R .semicolon .semicolon
  | block {body body' after after' : List Char} (hbody : R body body') :
      EndingAlike R (.block body after) (.block body' after')
  | closeBrace : EndingAlike R .closeBrace .closeBrace
  | label : EndingAlike R .label .label
  | endOfText : EndingAlike R .endOfText .endOfText

/-- Two ends of initializers before related texts. -/
inductive InitializerEndAlike (R : List Char → List Char → Prop) :
    InitializerEnd → InitializerEnd → Prop
  | comma {s t : List Char} (h : R s t) : InitializerEndAlike R (.comma s) (.comma t)
  | semicolon {s t : List Char} (h : R s t) : InitializerEndAlike R (.semicolon s) (.semicolon t)
  | endOfText : InitializerEndAlike R .endOfText .endOfText

/-- The same progress of one statement on two texts. -/
inductive AdvanceAlike (R : List Char → List Char → Prop) : Advance → Advance → Prop
  | more {s : OpenStatement} {rest rest' : List Char} (h : R rest rest') :
      AdvanceAlike R (.more s rest) (.more s rest')
  | complete {a b : Statement (List Char)} {rest rest' : List Char} (htokens : a.tokens = b.tokens)
      (hending : EndingAlike R a.ending b.ending) (h : R rest rest') :
      AdvanceAlike R (.complete a rest) (.complete b rest')
  | cutOff : AdvanceAlike R .cutOff .cutOff

/-- What two scans bring: nothing, or statements of the same tokens whose endings are of
one kind, before related texts. -/
inductive ScanAlike (R : List Char → List Char → Prop) :
    Option (Statement (List Char) × List Char) → Option (Statement (List Char) × List Char) → Prop
  | none : ScanAlike R none none
  | some {a b : Statement (List Char)} {rest rest' : List Char} (htokens : a.tokens = b.tokens)
      (hending : EndingAlike R a.ending b.ending) (h : R rest rest') :
      ScanAlike R (some (a, rest)) (some (b, rest'))

/-- A relation of texts that scanning keeps. -/
def KeptByScan (R : List Char → List Char → Prop) : Prop :=
  ∀ s t, R s t → ScanAlike R (scan s) (scan t)

theorem EndingAlike.map_unit_eq {R : List Char → List Char → Prop} {a b : Ending (List Char)}
    (h : EndingAlike R a b) : (a.map fun _ => ()) = b.map fun _ => () := by
  cases h <;> rfl

theorem EndingAlike.refl {R : List Char → List Char → Prop} (hR : ∀ text, R text text)
    (a : Ending (List Char)) : EndingAlike R a a := by
  cases a with
  | semicolon => exact .semicolon
  | block body after => exact .block (hR body)
  | closeBrace => exact .closeBrace
  | label => exact .label
  | endOfText => exact .endOfText

theorem AdvanceAlike.refl {R : List Char → List Char → Prop} (hR : ∀ text, R text text)
    (a : Advance) : AdvanceAlike R a a := by
  cases a with
  | more s rest => exact .more (hR rest)
  | complete s rest => exact .complete rfl (.refl hR s.ending) (hR rest)
  | cutOff => exact .cutOff

section

variable {R : List Char → List Char → Prop} {c : Char} {rest rest' : List Char}

/-! ## Boundaries -/

/-- What joins a token depends on the next character after blanks. -/
theorem OpenStatement.joint_alike (hhead : (skipBlanks rest).head? = (skipBlanks rest').head?)
    (hskipped : R (skipBlanks rest) (skipBlanks rest')) (hrest : R rest rest')
    (s : OpenStatement) : (s.joint c rest).1 = (s.joint c rest').1 ∧
      R (s.joint c rest).2 (s.joint c rest').2 := by
  rw [joint, joint, hhead]
  dsimp only
  split
  · exact ⟨rfl, hskipped⟩
  split
  · exact ⟨rfl, hskipped⟩
  split
  · exact ⟨rfl, hrest⟩
  · exact ⟨rfl, hrest⟩

theorem OpenStatement.boundary_alike
    (hjoin : mayJoin c = true → (skipBlanks rest).head? = (skipBlanks rest').head? ∧
      R (skipBlanks rest) (skipBlanks rest') ∧ R rest rest')
    (harguments : c = '(' → R (afterBracket '(' ')' 0 rest) (afterBracket '(' ')' 0 rest'))
    (htext : R (c :: rest) (c :: rest')) (s : OpenStatement) :
    (s.boundary c rest).1 = (s.boundary c rest').1 ∧
      R (s.boundary c rest).2 (s.boundary c rest').2 := by
  rw [boundary, boundary]
  split
  · next hjoins =>
      obtain ⟨hhead, hskipped, hrest⟩ := hjoin hjoins
      exact joint_alike hhead hskipped hrest s
  split
  · next hannotation => exact ⟨rfl, harguments hannotation.1⟩
  · exact ⟨rfl, htext⟩

/-! ## Steps -/

/-- One statement goes on before related texts. -/
theorem AdvanceAlike.of_eq {s t : OpenStatement} (h : s = t ∧ R rest rest') :
    AdvanceAlike R (.more s rest) (.more t rest') :=
  h.1 ▸ .more h.2

/-- Reading on at what may end a statement keeps what is kept behind a block and behind
an initial value. -/
theorem AdvanceAlike.readEnding (hrest : R rest rest')
    (hblock : R (afterBracket '\x7b' '\x7d' 0 rest) (afterBracket '\x7b' '\x7d' 0 rest'))
    (hinitializer : InitializerEndAlike R (initializerEnd .none rest) (initializerEnd .none rest'))
    (hnil : R [] []) (s : OpenStatement) :
    AdvanceAlike R (s.readEnding c rest) (s.readEnding c rest') := by
  cases s.readEnding_cases c with
  | colon _ heq | enclosed heq =>
      rw [heq, heq]
      exact .more hrest
  | constantBody _ heq =>
      rw [heq, heq]
      exact .more hblock
  | block _ heq =>
      rw [heq, heq]
      exact .complete rfl (.block hrest) hblock
  | initializer _ heq =>
      rw [heq, heq]
      generalize initializerEnd .none rest = left at hinitializer
      generalize initializerEnd .none rest' = right at hinitializer
      cases hinitializer with
      | comma h => exact .more h
      | semicolon h => exact .complete rfl .semicolon h
      | endOfText => exact .complete rfl .endOfText hnil
  | closeBrace _ heq =>
      rw [heq, heq]
      exact .complete rfl .closeBrace hrest
  | label _ heq =>
      rw [heq, heq]
      exact .complete rfl .label hrest
  | semicolon heq =>
      rw [heq, heq]
      exact .complete rfl .semicolon hrest

end

/-! ## Reading to the end of a statement -/

namespace KeptByScan

variable {R : List Char → List Char → Prop}

/-- Reading a statement to its end keeps what its steps keep. -/
theorem scanAlike_read (hnil : ∀ text, R [] text → text = [])
    (hcons : ∀ c rest text, R (c :: rest) text → ∃ d rest', text = d :: rest')
    (hstep : ∀ (s : OpenStatement) (c d : Char) (rest rest' : List Char),
      R (c :: rest) (d :: rest') → AdvanceAlike R (s.step c rest) (s.step d rest'))
    (s : OpenStatement) {text text' : List Char} (h : R text text') :
    ScanAlike R (s.read text) (s.read text') := by
  induction hweight : s.weight text using Nat.strongRecOn generalizing s text text' with
  | ind n ih =>
      cases text with
      | nil =>
          rw [hnil _ h, OpenStatement.read]
          exact .none
      | cons c rest =>
          obtain ⟨d, rest', rfl⟩ := hcons c rest text' h
          have halike := hstep s c d rest rest' h
          rw [OpenStatement.read_cons, OpenStatement.read_cons]
          generalize hleft : s.step c rest = left at halike
          generalize s.step d rest' = right at halike
          cases halike with
          | more hnext =>
              exact ih _ (hweight ▸ OpenStatement.weight_lt_of_step_eq_more hleft) _ hnext rfl
          | complete htokens hending hnext => exact .some htokens hending hnext
          | cutOff => exact .none

/-- Scanning keeps what passing over blanks and comments and single steps keep. -/
theorem of_step (hnil : ∀ text, R [] text → text = [])
    (hcons : ∀ c rest text, R (c :: rest) text → ∃ d rest', text = d :: rest')
    (hgaps : ∀ s t, R s t → R (skipGaps s) (skipGaps t))
    (hstep : ∀ (s : OpenStatement) (c d : Char) (rest rest' : List Char),
      R (c :: rest) (d :: rest') → AdvanceAlike R (s.step c rest) (s.step d rest')) :
    KeptByScan R :=
  fun s t h => scanAlike_read hnil hcons hstep .start (hgaps s t h)

end KeptByScan

end JavaOutline
