import JavaOutline.Proofs.Grammar.Spelling

/-!
# JavaOutline.Proofs.Grammar.TypeParameters

Type parameters in front of a method or constructor.  They are cut into
tokens at their bounds, but the tokens are passed over together, since the
angle brackets in them are counted (`takes_typeParameters`).
-/

namespace JavaOutline

open Text OpenStatement

/-- Type parameters: a name first, and whatever may follow it between angle
brackets. -/
structure TypeParameters where
  first : Name
  more : List Lexeme
  between : betweenAngles 0 true more = true

/-- The lexemes of type parameters, with the brackets around them. -/
def TypeParameters.lexemes (t : TypeParameters) : List Lexeme :=
  .mark '<' :: .word t.first.toWord :: (t.more ++ [.mark '>'])

/-! ## Counting angle brackets -/

/-- The number of open angle brackets after a text that never closes the
last of `depth`. -/
def depthAfter : Int → List Char → Option Int
  | depth, [] => some depth
  | depth, c :: cs => if 0 < angleDepth depth c then depthAfter (angleDepth depth c) cs else none

theorem depthAfter_append (depth : Int) (xs ys : List Char) :
    depthAfter depth (xs ++ ys) = (depthAfter depth xs).bind fun d => depthAfter d ys := by
  induction xs generalizing depth with
  | nil => rfl
  | cons c xs ih =>
      rw [List.cons_append, depthAfter, depthAfter]
      split
      · exact ih _
      · rfl

/-- Other characters leave the brackets open. -/
theorem depthAfter_of_forall_not {depth : Int} (hdepth : 0 < depth) {cs : List Char}
    (hcs : ∀ c ∈ cs, c ≠ '<' ∧ c ≠ '>') : depthAfter depth cs = some depth := by
  induction cs with
  | nil => rfl
  | cons c cs ih =>
      obtain ⟨hopen, hclose⟩ := hcs c List.mem_cons_self
      have hstep : angleDepth depth c = depth := by rw [angleDepth, if_neg hopen, if_neg hclose]
      rw [depthAfter, hstep, if_pos hdepth, ih fun d hd => hcs d (List.mem_cons_of_mem c hd)]

/-- Brackets are counted from any number on. -/
theorem foldl_angleDepth_add (depth : Int) (cs : List Char) :
    cs.foldl angleDepth depth = depth + cs.foldl angleDepth 0 := by
  induction cs generalizing depth with
  | nil => simp
  | cons c cs ih =>
      have hstep : angleDepth depth c = depth + angleDepth 0 c := by
        rw [angleDepth, angleDepth]
        split
        · omega
        · split <;> omega
      rw [List.foldl_cons, List.foldl_cons, ih, ih (angleDepth 0 c), hstep]
      omega

theorem afterTypeParameters_cons {depth : Int} (hdepth : 0 < depth) (cs : List Char)
    (others : List String) : afterTypeParameters depth (String.ofList cs :: others) =
      afterTypeParameters (cs.foldl angleDepth depth) others := by
  rw [afterTypeParameters, if_pos hdepth, unclosedAngles, String.toList_ofList,
    ← foldl_angleDepth_add]

/-- The tokens of a text that closes the last bracket at its end are passed
over. -/
theorem afterTypeParameters_pieces {depth : Int} {cs : List Char} (hdepth : 0 < depth)
    (h : depthAfter depth cs = some 1) (others : List String) :
    afterTypeParameters depth ((pieces ' ' (cs ++ ['>'])).map String.ofList ++ others) =
      others := by
  induction cs generalizing depth with
  | nil =>
      simp only [depthAfter, Option.some.injEq] at h
      subst h
      have hpieces : pieces ' ' ([] ++ ['>']) = [['>']] := by decide
      rw [hpieces, List.map_singleton, List.singleton_append, afterTypeParameters_cons hdepth]
      cases others with
      | nil => rfl
      | cons token others => rw [afterTypeParameters, if_neg (by decide)]
  | cons c cs ih =>
      rw [depthAfter] at h
      split at h
      case isFalse => cases h
      case isTrue hopen =>
        have hrest := ih hopen h
        obtain ⟨piece, more, hpieces⟩ :=
          List.exists_cons_of_ne_nil (pieces_ne_nil ' ' (cs ++ ['>']))
        rw [hpieces, List.map_cons, List.cons_append, afterTypeParameters_cons hopen] at hrest
        rw [List.cons_append, pieces, hpieces]
        split
        · next hblank =>
            subst hblank
            rw [List.map_cons, List.cons_append, afterTypeParameters_cons hdepth, List.map_cons,
              List.cons_append, List.foldl_nil, afterTypeParameters_cons hdepth]
            exact hrest
        · rw [List.map_cons, List.cons_append, afterTypeParameters_cons hdepth, List.foldl_cons]
          exact hrest

/-- Between angle brackets the brackets around stay open. -/
theorem depthAfter_spelled {depth : Nat} {named : Bool} {ls : List Lexeme}
    (h : betweenAngles depth named ls = true) :
    depthAfter (depth + 1) (spelled named ls) = some 1 := by
  induction ls generalizing depth named with
  | nil =>
      simp only [betweenAngles, beq_iff_eq] at h
      simp [spelled, depthAfter, h]
  | cons x ls ih =>
      cases x with
      | literal q => simp [betweenAngles] at h
      | word w =>
          simp only [betweenAngles, Bool.and_eq_true] at h
          have hword : ∀ c ∈ (if named then [' '] else []) ++ w.text.toList, c ≠ '<' ∧ c ≠ '>' := by
            intro c hc
            rcases List.mem_append.1 hc with hc | hc
            · cases named
              · cases hc
              · have hblank : c = ' ' := by simpa using hc
                rw [hblank]
                decide
            · constructor <;> (rintro rfl; exact absurd hc (w.not_mem (by decide)))
          rw [spelled, ← List.append_assoc, depthAfter_append,
            depthAfter_of_forall_not (by omega) hword]
          exact ih h.2
      | mark c =>
          obtain ⟨d, hc, hls⟩ := betweenAngles_mark h
          rw [spelled, depthAfter, hc.angleDepth_eq, if_pos (by omega)]
          exact ih hls

/-! ## Reading -/

/-- What is read of type parameters; `gap` comes before the first name. -/
def TypeParameters.spelled (t : TypeParameters) (gap : List Char) : List Char :=
  gap ++ (t.first.text.toList ++ JavaOutline.spelled true t.more)

/-- The tokens of type parameters. -/
def TypeParameters.tokens (t : TypeParameters) (gap : List Char) : List String :=
  (pieces ' ' ('<' :: (t.spelled gap ++ ['>']))).map String.ofList

/-- A token that begins with an angle bracket is passed over with what its
brackets hold. -/
theorem Reading.ofTokensAfter_angle {level : Level} {m : Modifiers} {first : Bool} {token : String}
    {tokens : List String} (hangle : token.toList.head? = some '<') :
    ofTokensAfter level m first (token :: tokens) =
      ofTokensAfter level m false (afterTypeParameters (unclosedAngles token) tokens) := by
  have hnot : ∀ word ∈ reservedWords, token ≠ word := by
    have hwords : ∀ word ∈ reservedWords, word.toList.head? ≠ some '<' := by decide
    rintro word hword rfl
    exact hwords token hword hangle
  have haccess : Access.ofKeyword? token = none := by
    unfold Access.ofKeyword?
    split
    · exact absurd rfl (hnot "public" (by decide))
    · exact absurd rfl (hnot "private" (by decide))
    · exact absurd rfl (hnot "protected" (by decide))
    · rfl
  have hkind : TypeKind.ofKeyword? token = none := by
    unfold TypeKind.ofKeyword?
    split
    · exact absurd rfl (hnot "class" (by decide))
    · exact absurd rfl (hnot "interface" (by decide))
    · exact absurd rfl (hnot "enum" (by decide))
    · rfl
  have hinert : isInert token = false := by
    cases h : isInert token with
    | false => rfl
    | true =>
        rw [isInert, List.contains_iff_mem] at h
        exact absurd rfl (hnot token (List.mem_append_right _ h))
  rw [ofTokensAfter, haccess, hkind]
  simp [hnot "static" (by decide), hnot "final" (by decide), hnot "package" (by decide),
    hnot "import" (by decide), hinert, hangle]

/-- What is read of type parameters leaves the bracket around them open. -/
theorem TypeParameters.depthAfter_spelled (t : TypeParameters) {gap : List Char}
    (hgap : ∀ c ∈ gap, c = ' ') : depthAfter 1 (t.spelled gap) = some 1 := by
  have hgapDepth : depthAfter 1 gap = some 1 := by
    apply depthAfter_of_forall_not (by decide)
    intro c hc
    rw [hgap c hc]
    decide
  have hfirst : depthAfter 1 t.first.text.toList = some 1 := by
    apply depthAfter_of_forall_not (by decide)
    intro c hc
    constructor <;> (rintro rfl; exact absurd hc (t.first.not_mem (by decide)))
  rw [spelled, depthAfter_append, hgapDepth, Option.bind_some, depthAfter_append, hfirst]
  exact JavaOutline.depthAfter_spelled t.between

/-- The tokens of type parameters are passed over. -/
theorem TypeParameters.ofTokensAfter_eq (t : TypeParameters) {gap : List Char}
    (hgap : ∀ c ∈ gap, c = ' ') {level : Level} (m : Modifiers) (first : Bool)
    (others : List String) : Reading.ofTokensAfter level m first (t.tokens gap ++ others) =
      Reading.ofTokensAfter level m false others := by
  obtain ⟨piece, more, hpieces⟩ :=
    List.exists_cons_of_ne_nil (pieces_ne_nil ' ' (t.spelled gap ++ ['>']))
  have htokens : t.tokens gap = String.ofList ('<' :: piece) :: more.map String.ofList := by
    rw [tokens, pieces, if_neg (by decide), hpieces]
    rfl
  have hpassed : afterTypeParameters (unclosedAngles (String.ofList ('<' :: piece)))
      (more.map String.ofList ++ others) = others := by
    have hall := afterTypeParameters_pieces (by decide) (t.depthAfter_spelled hgap) others
    rw [hpieces, List.map_cons, List.cons_append, afterTypeParameters_cons (by decide)] at hall
    rw [unclosedAngles, String.toList_ofList]
    exact hall
  rw [htokens, List.cons_append, Reading.ofTokensAfter_angle (by simp), hpassed]

namespace OpenStatement

variable {s k : OpenStatement} {l : Lexeme} {more : List Lexeme} {text rest : List Char}

/-- The blank that is kept of those before a name. -/
def gapBefore (text : List Char) : List Char := if text.head?.any isBlank then [' '] else []

/-- The blank that is kept after the bracket of type parameters: one that
follows the bracket where reading stands between two tokens. -/
def gapAfterAngle (s : OpenStatement) (text : List Char) : List Char :=
  match text with
  | '<' :: after => if s.current = "" then gapBefore after else []
  | _ => []

theorem gapBefore_eq_blank (text : List Char) : ∀ c ∈ gapBefore text, c = ' ' := by
  rw [gapBefore]
  split <;> simp

theorem gapAfterAngle_eq_blank (s : OpenStatement) (text : List Char) :
    ∀ c ∈ gapAfterAngle s text, c = ' ' := by
  unfold gapAfterAngle
  split
  · split
    · exact gapBefore_eq_blank _
    · simp
  · simp

/-- Within a token no blank is kept. -/
theorem gapAfterAngle_of_current_ne_empty {s : OpenStatement} (hcurrent : s.current ≠ "")
    (text : List Char) : gapAfterAngle s text = [] := by
  unfold gapAfterAngle
  split
  · rw [if_neg hcurrent]
  · rfl

/-- What is kept depends on two characters only. -/
theorem gapAfterAngle_append (s : OpenStatement) (c d : Char) (text q : List Char) :
    gapAfterAngle s (c :: d :: text ++ q) = gapAfterAngle s (c :: d :: text) := by
  by_cases hc : c = '<'
  · subst hc
    rfl
  · simp [gapAfterAngle, hc]

/-- No blank is kept of a text without blanks at its beginning. -/
theorem gapBefore_skipBlanks (text : List Char) : gapBefore (skipBlanks text) = [] := by
  have hhead : (skipBlanks text).head?.any isBlank = false := by
    have hnot := List.head?_dropWhile_not isBlank text
    rw [skipBlanks]
    cases hskipped : (text.dropWhile isBlank).head? with
    | none => rfl
    | some c => simpa [hskipped] using hnot
  rw [gapBefore, hhead]
  rfl

/-- The bracket that opens type parameters begins a token, also right after
a modifier. -/
theorem Stands.read_openAngle (hs : Stands s k text) (hangles : k.angles = 0)
    (hmodifier : s.current = "" ∨ mayPrecedeTypeParameters s.current = true)
    (hlaid : Laid (.mark '<' :: l :: more) text rest) : ∃ after, Laid (l :: more) after rest ∧
      gapBefore after = gapAfterAngle s text ∧
        s.read text = ({ k with current := "<", angles := 1 } : OpenStatement).read after := by
  by_cases hcurrent : s.current = ""
  · have hk : k = s := by rw [← hs.ended, endToken_of_current_eq_empty hcurrent]
    subst hk
    have hpush : (k.countAngle '<').push '<' = { k with current := "<", angles := 1 } := by
      simp [countAngle, push, hcurrent, hangles]
    obtain ⟨run, after, hrun, rfl, hfits, hls⟩ := hlaid
    rw [Lexeme.chars, List.singleton_append]
    cases run with
    | nil =>
        refine ⟨after, hls, by simp [gapAfterAngle, hcurrent], ?_⟩
        rw [List.nil_append, read_cons, step, if_neg (by decide), if_neg (by simp [hcurrent]),
          if_neg (by decide), if_neg (by decide), if_neg (by decide), if_neg (by decide),
          if_pos rfl, hpush]
    | cons b run =>
        have hplain : ¬ ('<' = '<' ∧ mayPrecedeTypeParameters k.current = true) := by
          rw [hcurrent]
          decide
        have hnot : gapAfterAngle k (b :: run ++ '<' :: after) = [] := by
          have hb : isBlank b = true := hrun b List.mem_cons_self
          unfold gapAfterAngle
          split
          · next heq =>
              rw [List.cons_append, List.cons.injEq] at heq
              rw [heq.1] at hb
              exact absurd hb (by decide)
          · rfl
        refine ⟨skipBlanks after, hls.of_skipBlanks, by rw [gapBefore_skipBlanks, hnot], ?_⟩
        rw [read_blanks_append k hrun (by simp) (by decide) (by decide), boundary,
          if_pos (by decide), joint]
        dsimp only
        rw [if_neg hplain, if_pos (by simp [joins, closesToken]), hpush]
  · have hwhole := hmodifier.resolve_left hcurrent
    obtain ⟨after, hafter, hread⟩ := read_joint hcurrent (by decide) hlaid
    refine ⟨skipBlanks after, hafter.of_skipBlanks,
      by rw [gapBefore_skipBlanks, gapAfterAngle_of_current_ne_empty hcurrent], hread.trans ?_⟩
    have hk := hs.ended
    rw [endToken_of_current_ne_empty hcurrent hs.plainly] at hk
    have hzero : s.angles = 0 := by rw [← hangles, ← hk]
    have hended : (s.countAngle '<').endToken = { k with angles := 1 } := by
      rw [endToken_of_current_ne_empty (s := s.countAngle '<') hcurrent hs.plainly, ← hk]
      simp [countAngle, hzero]
    rw [joint]
    dsimp only
    rw [if_pos ⟨rfl, hwhole⟩, hended]

/-- The first name of type parameters joins the bracket, or begins a token
after a blank. -/
theorem read_firstName (n : Name) {v : OpenStatement} (hv : v.current = "<")
    (hlaid : Laid (.word n.toWord :: more) text rest) : ∃ after, Laid more after rest ∧
      Between true (v.spell (gapBefore text ++ n.text.toList)) after ∧
        v.read text = (v.spell (gapBefore text ++ n.text.toList)).read after := by
  have hne : v.current ≠ "" := by rw [hv]; decide
  have hat : v.atAnnotation = false := by rw [ atAnnotation, hv]; decide
  have hlaid' := hlaid
  obtain ⟨run, after, hrun, rfl, hfits, hls⟩ := hlaid'
  cases run with
  | nil =>
      have hnone : gapBefore ([] ++ ((Lexeme.word n.toWord).chars ++ after)) = [] := by
        obtain ⟨c, cs, hchars, hblank⟩ := hfits.exists_cons
        rw [hchars, gapBefore]
        simp [hblank]
      rw [hnone]
      refine ⟨after, hls, ?_, ?_⟩
      · rw [List.nil_append, spell_word]
        refine ⟨extend_ne_empty hne _, (atAnnotation_extend hne _).trans hat, ?_, fun _ => hfits,
          by simp⟩
        exact not_mayPrecedeTypeParameters (c := '<') (by simp [extend, hv]) (by decide)
      · rw [List.nil_append, List.nil_append, spell_word, Lexeme.chars, read_word_append]
  | cons b run =>
      have hb : isBlank b = true := hrun b List.mem_cons_self
      have hapart : Apart (b :: run ++ ((Lexeme.word n.toWord).chars ++ after)) := by
        rintro d ⟨⟩
        exact ⟨by simp [isPlain, hb], isQuote_eq_false_of_isBlank hb⟩
      obtain ⟨after', hfits', hls', hread⟩ := (Stands.of_apart hat hapart).read_word hlaid
      have hspell : v.spell (' ' :: n.text.toList) = v.endToken.extend n.text := by
        rw [spell, if_pos rfl, spell_word, endToken_of_current_ne_empty hne hat]
      have hempty : v.endToken.current = "" := current_endToken v
      have hgap : gapBefore (b :: run ++ ((Lexeme.word n.toWord).chars ++ after)) = [' '] := by
        simp [gapBefore, hb]
      rw [hgap]
      refine ⟨after', hls', ?_, ?_⟩
      · rw [List.singleton_append, hspell]
        refine ⟨by simp [extend, n.ne_empty], n.notAt_extend hempty, ?_, fun _ => hfits', by simp⟩
        simpa [extend, hempty, dotted] using mayPrecedeTypeParameters_name n []
      · rw [List.singleton_append, hspell, hread]

/-- The bracket that closes type parameters ends their last token. -/
theorem endToken_typeParameters (t : TypeParameters) (gap : List Char) {u : OpenStatement}
    (hu : u = ({ k with current := "<", angles := 1 } : OpenStatement).spell (t.spelled gap))
    (hcurrent : k.current = "") (hangles : k.angles = 0) (hopened : u.current ≠ "")
    (hplainly : u.atAnnotation = false) :
    ((u.countAngle '>').push '>').endToken = k.takeAll (t.tokens gap) := by
  have hopen : ({ k with current := "<", angles := 1 } : OpenStatement) =
      { k.push '<' with angles := 1 } := by simp [push, hcurrent]
  rw [hopen, spell_angles] at hu
  have hwhole : k.spell ('<' :: (t.spelled gap ++ ['>'])) =
      ((k.push '<').spell (t.spelled gap)).push '>' := by
    rw [spell, if_neg (by decide), spell_append, spell, if_neg (by decide), spell]
  have htokens := tokens_spell k ('<' :: (t.spelled gap ++ ['>']))
  obtain ⟨piece, others, hpieces⟩ := List.exists_cons_of_ne_nil
    (pieces_ne_nil ' ' ('<' :: (t.spelled gap ++ ['>'])))
  have hlast : (u.countAngle '>').push '>' = k.spell ('<' :: (t.spelled gap ++ ['>'])) := by
    rw [hwhole, hu]
    simp [countAngle, push, hangles]
  have hne : (k.spell ('<' :: (t.spelled gap ++ ['>']))).current ≠ "" := by
    rw [← hlast, push_eq_extend]
    exact extend_ne_empty hopened _
  have hat : atAnnotation (k.spell ('<' :: (t.spelled gap ++ ['>']))) = false := by
    rw [← hlast, push_eq_extend]
    exact (atAnnotation_extend hopened _).trans hplainly
  rw [hlast, endToken_of_current_ne_empty hne hat, htokens, takeAll, TypeParameters.tokens,
    hpieces, angles_spell, parentheses_spell]
  simp [hcurrent]

/-- Type parameters are read as tokens of their own. -/
theorem Stands.read_typeParameters (hs : Stands s k text) (hangles : k.angles = 0)
    (hmodifier : s.current = "" ∨ mayPrecedeTypeParameters s.current = true) (t : TypeParameters)
    (hfollows : l.Follows) (hlaid : Laid (t.lexemes ++ l :: more) text rest) :
    ∃ after, Laid (l :: more) after rest ∧
      s.read text = (k.takeAll (t.tokens (gapAfterAngle s text))).read after := by
  have hsplit : t.lexemes ++ l :: more =
      .mark '<' :: .word t.first.toWord :: (t.more ++ .mark '>' :: l :: more) := by
    simp [TypeParameters.lexemes]
  rw [hsplit] at hlaid
  obtain ⟨start, hstart, hgap, hopen⟩ := hs.read_openAngle hangles hmodifier hlaid
  obtain ⟨mid, hmid, hbetween, hfirst⟩ := read_firstName t.first
    (v := { k with current := "<", angles := 1 }) rfl hstart
  rw [hgap] at hbetween hfirst
  generalize gapAfterAngle s text = gap at hbetween hfirst ⊢
  generalize hv : ({ k with current := "<", angles := 1 } : OpenStatement).spell
    (gap ++ t.first.text.toList) = v at hbetween hfirst
  have hone : v.angles = 1 := by rw [← hv, angles_spell]
  obtain ⟨inner, named, hinner, hclosing, hmore⟩ :=
    read_betweenAngles t.between (by rw [hone]; rfl) hbetween hmid
  generalize hu : v.spell (spelled true t.more) = u at hinner hmore
  have hopened : u.current ≠ "" := hinner.opened
  obtain ⟨after, hafter, hread⟩ := read_joined_closing (s := { u with angles := 1 }) hopened
    (by decide) (by decide) (by simp [joins, closesToken, countAngle, hfollows.head?_ne]) hclosing
  refine ⟨after, hafter, hopen.trans (hfirst.trans (hmore.trans (hread.trans ?_)))⟩
  have hone' : u.angles = 1 := by rw [← hu, angles_spell, hone]
  have hspelled : ({ u with angles := 1 } : OpenStatement) =
      ({ k with current := "<", angles := 1 } : OpenStatement).spell (t.spelled gap) := by
    rw [TypeParameters.spelled, ← List.append_assoc, spell_append, hv, hu, ← hone']
  rw [endToken_typeParameters t gap hspelled hs.current_eq hangles hopened hinner.plainly]

end OpenStatement

end JavaOutline
