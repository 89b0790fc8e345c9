import JavaOutline.Proofs.Grammar.AnnotatedMembers
import JavaOutline.Proofs.Routes

/-!
# JavaOutline.Proofs.Grammar.GenericHeadings

Headers of types with type parameters and with lists of types after any
keywords.  The type parameters go on with the token of the name, and are cut
where a word comes after a word (`takes_heading`), but the name is found in the
first token and the others are passed over, since the angle brackets in them are
counted (`TypeHeader.ofTokens?_namedTokens`).  So a header says the same with
type parameters and without them (`GenericHeading.reading`).
-/

namespace JavaOutline

open Text OpenStatement

/-! ## Clauses -/

/-- A list of types in the header of a type, with the keyword before it. -/
structure HeadingClause where
  keyword : Word
  first : ClassType
  more : List ClassType

/-- The lexemes of a list of types with its keyword. -/
def HeadingClause.lexemes (c : HeadingClause) : List Lexeme :=
  .word c.keyword :: classTypeLexemes c.first c.more

/-- The tokens of a list of types with its keyword. -/
def HeadingClause.tokens (c : HeadingClause) : List String :=
  [c.keyword.text, written (classTypeLexemes c.first c.more)]

theorem takes_clauses (cs : List HeadingClause) {k : OpenStatement}
    (hparentheses : k.parentheses = 0) (hangles : k.angles = 0) :
    Takes Lexeme.Follows k (cs.flatMap HeadingClause.lexemes)
      (k.takeAll (cs.flatMap HeadingClause.tokens)) := by
  induction cs generalizing k with
  | nil => simpa [takeAll] using Takes.nil
  | cons c cs ih =>
      have htypes := takes_classTypes c.first c.more (k := k.take c.keyword.text) hparentheses
        hangles
      have hclause := (takes_word k c.keyword).append htypes (fun _ _ hl => hl)
        (by intro y hy; cases hy; trivial)
      have hrest := hclause.append (ih (k := (k.take c.keyword.text).take
        (written (classTypeLexemes c.first c.more))) hparentheses hangles) (fun _ _ hl => hl) (by
          intro y hy
          cases cs with
          | nil => cases hy
          | cons d cs => cases hy; trivial)
      simpa [HeadingClause.lexemes, HeadingClause.tokens, takeAll, take] using hrest

theorem balanced_clauses (cs : List HeadingClause) :
    Balanced (cs.flatMap HeadingClause.lexemes) :=
  .flatMap fun c _ => .word c.keyword (balanced_classTypes c.first c.more)

/-! ## Names with type parameters -/

/-- The lexemes of a name and of the type parameters after it. -/
def namedLexemes (n : Name) (types : Option TypeParameters) : List Lexeme :=
  .word n.toWord :: (types.map TypeParameters.lexemes).getD []

/-- The tokens of a name and of the type parameters after it. -/
def namedTokens (n : Name) : Option TypeParameters → List String
  | none => [n.text]
  | some t => (pieces ' ' (n.text.toList ++ '<' :: (t.spelled [] ++ ['>']))).map String.ofList

theorem takes_named (n : Name) (types : Option TypeParameters) {k : OpenStatement}
    (hangles : k.angles = 0) :
    Takes Lexeme.Follows k (namedLexemes n types) (k.takeAll (namedTokens n types)) := by
  cases types with
  | none => exact takes_word k n.toWord
  | some t =>
      have hinner : betweenAngles 0 false (.word t.first.toWord :: t.more) = true := by
        simp [betweenAngles, t.between]
      have hspelled : spelled false (.word n.toWord ::
          .mark '<' :: .word t.first.toWord :: (t.more ++ [.mark '>'])) =
            n.text.toList ++ '<' :: (t.spelled [] ++ ['>']) := by
        simp [spelled, spelled_append_mark, TypeParameters.spelled]
      have hall := takes_spelled ⟨n, []⟩ hinner 0 hangles
      simpa [QualifiedName.lexemes, dotted, enclosed, arrayBrackets, hspelled, namedLexemes,
        namedTokens, TypeParameters.lexemes] using hall

/-- **The name of a type is found with type parameters and without them**, and
what comes after it is read alike. -/
theorem TypeHeader.ofTokens?_namedTokens (kind : TypeKind) (n : Name)
    (types : Option TypeParameters) (others : List String) :
    ofTokens? kind (namedTokens n types ++ others) = ofTokens? kind (n.text :: others) := by
  cases types with
  | none => rfl
  | some t =>
      obtain ⟨piece, more, hpieces⟩ :=
        List.exists_cons_of_ne_nil (pieces_ne_nil ' ' (t.spelled [] ++ ['>']))
      have hfront : ' ' ∉ n.text.toList ++ ['<'] := by
        simp [n.not_mem (c := ' ') (by decide)]
      have htokens : namedTokens n (some t) ++ others = String.ofList (n.text.toList ++
          '<' :: piece) :: (more.map String.ofList ++ others) := by
        have hall := pieces_append_of_not_mem hfront hpieces
        simp only [List.append_assoc, List.singleton_append] at hall
        rw [namedTokens, hall, List.map_cons, List.cons_append]
      -- All brackets of the list are counted from the one that opens it.
      have hpassed : afterTypeParameters (unclosedAngles (String.ofList (n.text.toList ++
          '<' :: piece))) (more.map String.ofList ++ others) = others := by
        have hgap : ∀ c ∈ ([] : List Char), c = ' ' := by simp
        have hall := afterTypeParameters_pieces (by decide) (t.depthAfter_spelled hgap) others
        rw [hpieces, List.map_cons, List.cons_append, afterTypeParameters_cons (by decide)] at hall
        have hname := n.unclosedAngles_eq
        rw [unclosedAngles] at hname
        rw [unclosedAngles, String.toList_ofList, List.foldl_append, hname]
        exact hall
      have hplain : afterTypeParameters (unclosedAngles n.text) others = others := by
        rw [n.unclosedAngles_eq]
        cases others <;> simp [afterTypeParameters]
      have hname : (n.text.toList ++ '<' :: piece).takeWhile (· != '<') = n.text.toList := by
        have hnot : ∀ c ∈ n.text.toList, (c != '<') = true := by
          intro c hc
          have hne : c ≠ '<' := by rintro rfl; exact n.not_mem (by decide) hc
          simpa using hne
        rw [List.takeWhile_append_of_pos hnot]
        simp
      rw [htokens, ofTokens?, ofTokens?]
      simp only [hpassed, hplain, String.toList_ofList, hname, n.takeWhile_eq]

/-! ## Headers -/

/-- What may be written of a type before its body. -/
structure GenericHeading where
  modifiers : List Modifier
  kind : TypeKind
  name : Name
  typeParameters : Option TypeParameters
  clauses : List HeadingClause

namespace GenericHeading

/-- The lexemes of a header before its clauses. -/
def openingLexemes (h : GenericHeading) : List Lexeme :=
  modifierLexemes h.modifiers ++ .word h.kind.word :: namedLexemes h.name h.typeParameters

/-- The lexemes of a header from its clauses to the brace. -/
def closingLexemes (h : GenericHeading) : List Lexeme :=
  h.clauses.flatMap HeadingClause.lexemes ++ [.mark '\x7b']

/-- The lexemes of a header and of the brace after it. -/
def lexemes (h : GenericHeading) : List Lexeme := h.openingLexemes ++ h.closingLexemes

/-- The tokens of a header. -/
def tokens (h : GenericHeading) : List String :=
  h.modifiers.map Modifier.text ++ h.kind.keyword :: (namedTokens h.name h.typeParameters ++
    h.clauses.flatMap HeadingClause.tokens)

/-- What a header says. -/
def header? (h : GenericHeading) : Option TypeHeader :=
  TypeHeader.ofTokens? h.kind (h.name.text :: h.clauses.flatMap HeadingClause.tokens)

theorem takes_heading (h : GenericHeading) : Takes Lexeme.Follows start
    (h.openingLexemes ++ h.clauses.flatMap HeadingClause.lexemes) (start.takeAll h.tokens) := by
  have hfollows : ∀ y ∈ (h.clauses.flatMap HeadingClause.lexemes).head?, y.Follows := by
    intro y hy
    cases hclauses : h.clauses with
    | nil => rw [hclauses] at hy; cases hy
    | cons c cs => rw [hclauses] at hy; cases hy; trivial
  have hkind := (takes_modifiers start h.modifiers).append
    (takes_word _ h.kind.word) (fun _ _ hl => hl) (by intro y hy; cases hy; trivial)
  have hname := hkind.append (takes_named h.name h.typeParameters rfl) (fun _ _ hl => hl)
    (by intro y hy; cases hy; trivial)
  have hall := hname.append (takes_clauses h.clauses rfl rfl) (fun _ _ hl => hl) hfollows
  simpa [openingLexemes, tokens, takeAll, take, TypeKind.word] using hall

theorem balanced_opening (h : GenericHeading) : Balanced h.openingLexemes := by
  have hnamed : Balanced (namedLexemes h.name h.typeParameters) := by
    rw [namedLexemes]
    cases h.typeParameters with
    | none => exact .word h.name.toWord .nil
    | some t => exact .word h.name.toWord t.balanced
  exact (balanced_modifiers h.modifiers).append (.word h.kind.word hnamed)

/-- **A header is one statement up to the brace.** -/
theorem scan_eq (h : GenericHeading) {text rest body : List Char}
    (hlaid : Laid h.lexemes text rest) (hbody : past h.lexemes text = body) :
    scan text = some (⟨h.tokens, .block body (afterBracket '\x7b' '\x7d' 0 body)⟩,
      afterBracket '\x7b' '\x7d' 0 body) := by
  have hslash : (h.openingLexemes ++ h.clauses.flatMap HeadingClause.lexemes).head? ≠
      some (.mark '/') := by
    cases hmodifiers : h.modifiers <;> simp [openingLexemes, hmodifiers, modifierLexemes]
  have hlone : (start.takeAll h.tokens).isLoneName = false := by
    have hlength : h.tokens.length ≠ 1 := by
      have hnamed : namedTokens h.name h.typeParameters ≠ [] := by
        cases h.typeParameters <;> simp [namedTokens, pieces_ne_nil]
      have hpositive := List.length_pos_of_ne_nil hnamed
      simp [tokens]
      omega
    simp [isLoneName, hlength]
  have hlaid' : Laid (h.lexemes ++ []) text rest := by simpa using hlaid
  have hexact := hlaid'.exact (by simp [lexemes, closingLexemes])
  have hsplit : h.lexemes =
      (h.openingLexemes ++ h.clauses.flatMap HeadingClause.lexemes) ++ [.mark '\x7b'] := by
    simp [lexemes, closingLexemes]
  rw [hsplit] at hexact hbody
  obtain ⟨next, hnext, hscan⟩ :=
    h.takes_heading.scan_block (by simp [Lexeme.Follows]) hslash rfl hlone hexact
  have hsuffix := (List.suffix_cons _ next).trans (block_suffix_of_scan hscan rfl)
  have heq := hexact.eq_past hnext List.suffix_rfl hsuffix
  rw [hbody] at heq
  rw [hscan, heq]
  simp

/-- Headers that go on alike are statements that end at the same place. -/
theorem scan_front {h : GenericHeading} {front back : List Lexeme} {x start rest : List Char}
    (hlexemes : h.lexemes = front ++ back) (hback : back ≠ []) (hx : Laid front x start)
    (hlaid : Laid back start rest) :
    scan x = some (⟨h.tokens, .block (past back start)
      (afterBracket '\x7b' '\x7d' 0 (past back start))⟩,
        afterBracket '\x7b' '\x7d' 0 (past back start)) := by
  have hnext := hx.past_append hback
  rw [← hlexemes] at hnext
  have hall : Laid h.lexemes x rest := by
    rw [hlexemes]
    exact hx.trans hlaid
  exact h.scan_eq hall hnext

/-- A header says the same with type parameters and without them. -/
theorem reading (h : GenericHeading) (level : Level) : Reading.ofTokens level h.tokens =
    Reading.ofTokens level ({ h with typeParameters := none } : GenericHeading).tokens := by
  refine Reading.ofTokensAfter_modifiers_congr (fun m first => ?_) h.modifiers .absent true
  rw [Reading.ofTokensAfter_kind, Reading.ofTokensAfter_kind,
    TypeHeader.ofTokens?_namedTokens, TypeHeader.ofTokens?_namedTokens]

/-- What a header says does not depend on the modifiers.  In the body of a method
it may not begin with an inert one. -/
theorem exists_reading_eq (h : GenericHeading) : ∃ header, h.header? = some header ∧
    ∀ level, (level = .methodBody → ∀ x ∈ h.modifiers.head?, isInert x.text = false) →
      Reading.ofTokens level h.tokens = .declaring (.type header) := by
  obtain ⟨header, hheader⟩ : ∃ header, h.header? = some header := by
    obtain ⟨c, cs, hname, _⟩ := h.name.exists_cons
    have hnonempty : h.name.text.toList.isEmpty = false := by rw [hname, List.isEmpty_cons]
    rw [header?, TypeHeader.ofTokens?]
    simp only [h.name.takeWhile_eq, hnonempty]
    exact ⟨_, rfl⟩
  refine ⟨header, hheader, fun level hinert => ?_⟩
  rw [Reading.ofTokens, tokens,
    Reading.ofTokensAfter_modifiers _ _ _ _ _ (fun hlevel _ => hinert hlevel),
    Reading.ofTokensAfter_kind, TypeHeader.ofTokens?_namedTokens, ← header?, hheader]
  rfl

/-- A header leads into the body. -/
theorem route (h : GenericHeading) {levels goal : List Level} {w text : List Char}
    (hinert : levelOf levels = .methodBody → ∀ x ∈ h.modifiers.head?, isInert x.text = false)
    (hlaid : Laid h.lexemes (w ++ ['\x7b']) []) (htext : Route (.typeBody :: levels) text goal) :
    Route levels (w ++ '\x7b' :: text) goal := by
  have hinside : levelInside (levelOf levels) h.tokens = .typeBody := by
    obtain ⟨header, _, hreading⟩ := h.exists_reading_eq
    rw [levelInside, hreading _ hinert]
    rfl
  have hsplit : h.lexemes =
      (h.openingLexemes ++ h.clauses.flatMap HeadingClause.lexemes) ++ [.mark '\x7b'] := by
    simp [lexemes, closingLexemes]
  rw [hsplit] at hlaid
  have hany : ∀ q, Laid ((h.openingLexemes ++ h.clauses.flatMap HeadingClause.lexemes) ++
      [.mark '\x7b']) (w ++ '\x7b' :: q) q := by
    intro q
    simpa using hlaid.append_any (by decide) q
  have hpassed : PassedUpTo '\x7b' w :=
    (h.balanced_opening.append (balanced_clauses _)).passedUpTo (by decide) hany
  rw [← hsplit] at hany
  have hbody : ∀ q, past h.lexemes (w ++ '\x7b' :: q) = q := by
    intro q
    have hlast := hany q
    rw [hsplit] at hlast ⊢
    exact hlast.past_eq
  exact .block hpassed (fun q => h.scan_eq (hany q) (hbody q)) (hinside ▸ htext)

/-- The way into the body of a class. -/
theorem route_classA : Route [] "class A \x7b".toList [.typeBody] := by
  have hlaid : Laid (⟨[], .classType, ⟨⟨"A", .refl true⟩, .refl false⟩, none, []⟩ :
      GenericHeading).lexemes ("class A ".toList ++ ['\x7b']) [] :=
    laid_spaced (isMark_of_all_isFormed (by decide +kernel))
  have htext : "class A ".toList ++ '\x7b' :: [] = "class A \x7b".toList := by decide
  rw [← htext]
  exact route _ (by simp) hlaid (.stop _)

end GenericHeading

end JavaOutline
