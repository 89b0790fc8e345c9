import JavaOutline.Proofs.Annotations
import JavaOutline.Proofs.Grammar.Balance
import JavaOutline.Proofs.Grammar.Signatures
import JavaOutline.Proofs.Lexical.Ends

/-!
# JavaOutline.Proofs.Grammar.AnnotatedMembers

Annotations in front of the members of types and of parameters.  What is
read as one statement may be followed by annotated texts
(`Annotated.of_block`, `Annotated.of_semicolon`, `Annotated.of_closeBrace`),
and so may the header of a type, a field and constants, each of which may
have annotations in front.

In front of each parameter of a signature reading stands between two tokens
(`Signature.leads_opening`, `FormalParameter.leads_next`), unless the comma
before it has begun a token, so a signature whose parameters have
annotations is an annotated text too (`Signature.annotated`).
-/

namespace JavaOutline

open Text OpenStatement

/-! ## Braces -/

theorem balanced_betweenAngles {depth : Nat} {named : Bool} {ls : List Lexeme}
    (h : betweenAngles depth named ls = true) : Balanced ls := by
  induction ls generalizing depth named with
  | nil => exact .nil
  | cons l ls ih =>
      cases l with
      | literal q => simp [betweenAngles] at h
      | word w =>
          simp only [betweenAngles, Bool.and_eq_true] at h
          exact .word w (ih h.2)
      | mark c =>
          obtain ⟨d, hc, hls⟩ := betweenAngles_mark h
          exact .mark hc.mem_innerMarks (ih hls)

theorem TypeParameters.balanced (t : TypeParameters) : Balanced t.lexemes := by
  have hmore := (balanced_betweenAngles t.between).append (.mark (c := '>') (by decide) .nil)
  exact .mark (by decide) (.word t.first.toWord hmore)

theorem FormalParameter.balanced (p : FormalParameter) : Balanced p.lexemes := by
  have hdots : Balanced p.dots := by
    rw [dots]
    cases p.form with
    | named n => exact .nil
    | variableArguments => exact .mark (by decide) (.mark (by decide) (.mark (by decide) .nil))
  have hname := p.type.balanced.append (hdots.append (.word p.name.toWord .nil))
  have hbrackets := balanced_arrayBrackets p.dimensions
  rw [lexemes, lexemesToName]
  cases p.isFinal with
  | true => exact .append (.word finalWord hname) hbrackets
  | false => exact .append hname hbrackets

theorem Signature.balanced_opening (h : Signature) : Balanced h.openingLexemes := by
  have htypes : Balanced h.typeParameterLexemes := by
    cases hsome : h.typeParameters with
    | none => simpa [typeParameterLexemes, hsome] using Balanced.nil
    | some t => simpa [typeParameterLexemes, hsome] using t.balanced
  have hmember : Balanced h.memberLexemes := by
    have hname : Balanced [.word h.name.toWord] := .word _ .nil
    cases htype : h.type with
    | none => simpa [memberLexemes, htype] using hname
    | some type => simpa [memberLexemes, htype] using type.balanced.append hname
  exact ((balanced_modifiers h.modifiers).append (htypes.append hmember)).append
    (.mark (by decide) .nil)

theorem balanced_thrown (thrown : List ClassType) : Balanced (thrownLexemes thrown) := by
  cases thrown with
  | nil => exact .nil
  | cons t ts => exact .word throwsWord (balanced_classTypes t ts)

/-! ## Whole statements -/

/-- Lexemes that end in a mark other than a slash are laid out whatever
follows. -/
theorem Laid.append_any {ls : List Lexeme} {c : Char} (hc : c ≠ '/') {w : List Char}
    (h : Laid (ls ++ [.mark c]) w []) (q : List Char) : Laid (ls ++ [.mark c]) (w ++ q) q := by
  have hlast : ∀ l ∈ (ls ++ [Lexeme.mark c]).getLast?, l.Fits [] → l.Fits q := by
    intro l hl hfits
    rw [List.getLast?_concat, Option.mem_some_iff] at hl
    subst hl
    exact ⟨hfits.1, fun hslash => absurd hslash hc⟩
  simpa using h.append_text hlast

/-- A text that is laid out whatever follows it has its braces closed. -/
theorem Balanced.passed {ls : List Lexeme} (h : Balanced ls) {w : List Char}
    (hlaid : ∀ q, Laid ls (w ++ q) q) : Passed w :=
  fun depth q => h.passes depth _ _ (hlaid q)

/-- A text before a mark has its braces closed if its lexemes have. -/
theorem Balanced.passedUpTo {ls : List Lexeme} (h : Balanced ls) {c : Char}
    (hblank : isBlank c = false) {w : List Char}
    (hlaid : ∀ q, Laid (ls ++ [.mark c]) (w ++ c :: q) q) : PassedUpTo c w := by
  intro depth q
  obtain ⟨mid, hls, hmark⟩ := (hlaid q).append
  have hmid := hls.suffix
  obtain ⟨run, after, hrun, rfl, _, hafter⟩ := hmark
  have hsuffix : after <:+ w ++ c :: q :=
    ((List.suffix_cons c after).trans (List.suffix_append run _)).trans hmid
  rw [h.passes depth _ _ hls, afterBracket_blanks_append _ _ _ (by decide) (by decide) hrun,
    hafter.eq_of_suffix hblank hsuffix, Lexeme.chars, List.singleton_append]

/-- What reading from a place leaves is an end of the text, and so is what is
inside a block, with its brace. -/
theorem ReadingPlace.read_suffix {o : ReadingPlace} {text rest : List Char}
    {statement : Statement (List Char)} (h : o.read text = some (statement, rest)) :
    rest <:+ text ∧ ∀ body after, statement.ending = .block body after → '\x7b' :: body <:+ text := by
  cases o with
  | front => exact ⟨scan_suffix h, fun _ _ hblock => block_suffix_of_scan h hblock⟩
  | within s => exact read_stays h

namespace Annotated

variable {o : ReadingPlace} {ls : List Lexeme} {tokens : List String} {w text text' : List Char}

/-- The rest of a statement that a semicolon ends. -/
theorem of_semicolon (hbalanced : Balanced (ls ++ [.mark ';']))
    (hread : ∀ text rest, Laid (ls ++ [.mark ';']) text rest → ∃ after, Laid [] after rest ∧
      o.read text = some (⟨tokens, .semicolon⟩, after))
    (hlaid : Laid (ls ++ [.mark ';']) (w ++ [';']) []) (htexts : Annotated .front text text') :
    Annotated o (w ++ ';' :: text) (w ++ ';' :: text') := by
  have hany := hlaid.append_any (by decide)
  have hpassed := hbalanced.passed hany
  have hsemicolon : ∀ q, o.read ((w ++ [';']) ++ q) = some (⟨tokens, .semicolon⟩, q) := by
    intro q
    obtain ⟨after, hafter, hend⟩ := hread _ q (hany q)
    have hsuffix := (ReadingPlace.read_suffix hend).1
    rw [List.append_assoc, List.singleton_append] at hsuffix
    rw [hend, hafter.eq_of_suffix (by decide) hsuffix]
  simpa using Annotated.statement (.inl rfl) hpassed hsemicolon htexts

/-- The rest of a statement that has a block. -/
theorem of_block (hbalanced : Balanced ls)
    (hread : ∀ text rest, Laid (ls ++ [.mark '\x7b']) text rest → ∃ body, Laid [] body rest ∧
      o.read text = some (⟨tokens, .block body (JavaOutline.afterBracket '\x7b' '\x7d' 0 body)⟩,
        JavaOutline.afterBracket '\x7b' '\x7d' 0 body))
    (hlaid : Laid (ls ++ [.mark '\x7b']) (w ++ ['\x7b']) [])
    (htexts : Annotated .front text text') :
    Annotated o (w ++ '\x7b' :: text) (w ++ '\x7b' :: text') := by
  have hany : ∀ q, Laid (ls ++ [.mark '\x7b']) (w ++ '\x7b' :: q) q := by
    intro q
    simpa using hlaid.append_any (by decide) q
  have hblock : ∀ q, o.read (w ++ '\x7b' :: q) =
      some (⟨tokens, .block q (JavaOutline.afterBracket '\x7b' '\x7d' 0 q)⟩,
        JavaOutline.afterBracket '\x7b' '\x7d' 0 q) := by
    intro q
    obtain ⟨body, hinside, hend⟩ := hread _ q (hany q)
    have hsuffix := (List.suffix_cons _ body).trans ((ReadingPlace.read_suffix hend).2 body _ rfl)
    rw [hend, hinside.eq_of_suffix (by decide) hsuffix]
  exact .block (hbalanced.passedUpTo (by decide) hany) hblock htexts

/-- The rest of a block. -/
theorem of_closeBrace (hbalanced : Balanced ls)
    (hread : ∀ text rest, Laid (ls ++ [.mark '\x7d']) text rest → ∃ after, Laid [] after rest ∧
      o.read text = some (⟨tokens, .closeBrace⟩, after))
    (hlaid : Laid (ls ++ [.mark '\x7d']) (w ++ ['\x7d']) [])
    (htexts : Annotated .front text text') :
    Annotated o (w ++ '\x7d' :: text) (w ++ '\x7d' :: text') := by
  have hany : ∀ q, Laid (ls ++ [.mark '\x7d']) (w ++ '\x7d' :: q) q := by
    intro q
    simpa using hlaid.append_any (by decide) q
  have hclose : ∀ q, o.read (w ++ '\x7d' :: q) = some (⟨tokens, .closeBrace⟩, q) := by
    intro q
    obtain ⟨after, hafter, hend⟩ := hread _ q (hany q)
    rw [hend, hafter.eq_of_suffix (by decide) (ReadingPlace.read_suffix hend).1]
  exact .closeBrace (hbalanced.passedUpTo (by decide) hany) hclose htexts

end Annotated

/-! ## Types, fields and constants -/

section

variable {w text text' : List Char} (htexts : Annotated .front text text')
include htexts

/-- The body of a type is annotated as texts are. -/
theorem TypeHeading.annotated (h : TypeHeading)
    (hlaid : Laid (h.lexemes ++ [.mark '\x7b']) (w ++ ['\x7b']) []) :
    Annotated .front (w ++ '\x7b' :: text) (w ++ '\x7b' :: text') :=
  .of_block h.balanced (fun _ _ => scan_heading h) hlaid htexts

/-- A declaration of variables up to its semicolon. -/
theorem VariableDeclaration.annotated (d : VariableDeclaration)
    (hlaid : Laid d.lexemes (w ++ [';']) []) :
    Annotated .front (w ++ ';' :: text) (w ++ ';' :: text') := by
  obtain ⟨ls, hlexemes⟩ : ∃ ls, d.lexemes = ls ++ [.mark ';'] :=
    ⟨modifierLexemes d.modifiers ++ (d.type.lexemes ++ .word d.first.name.toWord ::
      (valueLexemes d.first.value ++ declaratorLexemes d.more)), by
        simp [VariableDeclaration.lexemes]⟩
  have hbalanced := d.balanced
  have hread : ∀ start rest, Laid d.lexemes start rest → ∃ after, Laid [] after rest ∧
      ReadingPlace.front.read start = some (⟨d.tokens, .semicolon⟩, after) :=
    fun start rest hstart => scan_variables d (by simpa using hstart)
  rw [hlexemes] at hlaid hbalanced hread
  exact .of_semicolon hbalanced hread hlaid htexts

/-- What is read as tokens, up to the semicolon or brace after it. -/
theorem Takes.annotated {ls : List Lexeme} {k : OpenStatement}
    (htakes : Takes (fun _ => True) start ls k) (hbalanced : Balanced ls)
    (hslash : ls.head? ≠ some (.mark '/')) (hparentheses : k.parentheses = 0) {c : Char}
    (hc : c = ';' ∨ c = '\x7d') (hlaid : Laid (ls ++ [.mark c]) (w ++ [c]) []) :
    Annotated .front (w ++ c :: text) (w ++ c :: text') := by
  rcases hc with rfl | rfl
  · exact .of_semicolon (hbalanced.append (.mark (by decide) .nil))
      (fun _ _ => htakes.scan_semicolon trivial hslash hparentheses) hlaid htexts
  · exact .of_closeBrace hbalanced
      (fun _ _ => htakes.scan_closeBrace trivial hslash hparentheses) hlaid htexts

/-- The names of constants up to the semicolon or brace after them. -/
theorem annotated_names (n : Name) (ns : List Name) {c : Char} (hc : c = ';' ∨ c = '\x7d')
    (hlaid : Laid ((.word n.toWord :: moreNames ns) ++ [.mark c]) (w ++ [c]) []) :
    Annotated .front (w ++ c :: text) (w ++ c :: text') := by
  have hbalanced : Balanced (.word n.toWord :: moreNames ns) :=
    .word n.toWord (.flatMap fun m _ => .mark (by decide) (.word m.toWord .nil))
  exact (takes_names _ n ns rfl).annotated htexts hbalanced (by simp) rfl hc hlaid

end

/-! ## In front of a parameter -/

/-- No bracket comes first in a text whose first mark joins no token. -/
theorem head?_skipBlanks_of_isSteady {text : List Char} (h : isSteady text = true) :
    (skipBlanks text).head? ≠ some '[' := by
  intro hhead
  obtain ⟨after, hafter⟩ := List.head?_eq_some_iff.1 hhead
  have hsplit := List.takeWhile_append_dropWhile (p := isBlank) (l := text)
  have hblanks := allBlank_takeWhile text
  rw [skipBlanks] at hafter
  rw [hafter] at hsplit
  have hgaps : skipGaps text = '[' :: after := by
    rw [← hsplit, skipGaps_blanks_append hblanks, skipGaps_cons_of_code (by decide) (by decide)]
  have hjoin : mayJoin '[' = true := by decide
  simp [isSteady, hgaps, hjoin] at h

section

variable {s : OpenStatement} {w : List Char}

/-- The blank that is kept after the bracket of type parameters does not
depend on what follows the parenthesis. -/
theorem Signature.gap_append (h : Signature) {opening : List Char}
    (hopening : Laid h.openingLexemes opening []) (q : List Char) :
    h.gap (skipBlanks (opening ++ q)) = h.gap (skipBlanks opening) := by
  obtain ⟨w, ms, hmember⟩ := h.memberLexemes_head?
  obtain ⟨l, k, ls, hlexemes⟩ : ∃ l k ls, h.openingLexemes = l :: k :: ls := by
    have hlength : 1 < h.openingLexemes.length := by
      simp [openingLexemes, namedLexemes, hmember]
      omega
    obtain ⟨l, tail, hl⟩ := List.exists_cons_of_length_pos (Nat.lt_of_succ_lt hlength)
    rw [hl, List.length_cons] at hlength
    obtain ⟨k, ls, hk⟩ := List.exists_cons_of_length_pos (Nat.lt_of_succ_lt_succ hlength)
    exact ⟨l, k, ls, by rw [hl, hk]⟩
  rw [hlexemes] at hopening
  obtain ⟨c, d, more, htext⟩ : ∃ c d more, skipBlanks opening = c :: d :: more := by
    obtain ⟨after, htext, hfits, hafter⟩ := hopening.skipBlanks
    obtain ⟨run, rest, _, rfl, hfits', _⟩ := hafter
    obtain ⟨c, cs, hchars, _⟩ := hfits.exists_cons
    obtain ⟨d, ds, hchars', _⟩ := hfits'.exists_cons
    obtain ⟨e, es, hmore⟩ := List.exists_cons_of_ne_nil
      (show cs ++ (run ++ (k.chars ++ rest)) ≠ [] by simp [hchars'])
    exact ⟨c, e, es, by rw [htext, hchars, List.cons_append, hmore]⟩
  rw [gap, gap, hopening.skipBlanks_append_text, htext, gapAfterAngle_append]

/-- Reading stands between two tokens in front of the first parameter. -/
theorem Signature.leads_opening (h : Signature) {opening : List Char}
    (hopening : Laid h.openingLexemes opening []) :
    ReadingPlace.front.Leads opening (h.opened (h.gap (skipBlanks opening)) []) := by
  have hlaid : ∀ q, Laid h.openingLexemes (opening ++ q) q := hopening.append_any (by decide)
  refine ⟨fun q hq => ?_, h.balanced_opening.passed hlaid⟩
  have hexact : Laid (h.openingLexemes ++ []) (opening ++ q) q := by simpa using hlaid q
  obtain ⟨run, hrun, hscan⟩ := h.scan_opening hexact
  obtain ⟨run', hrun', hpast⟩ := hexact.past
  have hblanks : AllBlank (run ++ run') := by
    simpa [AllBlank, or_imp, forall_and] using And.intro hrun hrun'
  rw [hpast, ← List.append_assoc, h.gap_append hopening,
    read_blanks_append_of_isSteady hblanks rfl hq] at hscan
  exact hscan

/-- Reading stands between two tokens in front of the next parameter, unless
the comma comes right behind a bracket. -/
theorem FormalParameter.leads_next (p : FormalParameter) (hcurrent : s.current = "")
    (hangles : s.angles = 0) (hparentheses : s.parentheses ≠ 0)
    (hlaid : Laid (p.lexemes ++ [.mark ',']) w [])
    (hapart : p.dimensions = 0 ∨ (past p.lexemes w).head? ≠ some ',') :
    (ReadingPlace.within s).Leads w (s.takeAll (p.tokens "")) := by
  have hany := hlaid.append_any (by decide)
  refine ⟨fun q hq => ?_, (p.balanced.append (.mark (by decide) .nil)).passed hany⟩
  have hexact : Laid ((p.lexemes ++ [.mark ',']) ++ []) (w ++ q) q := by simpa using hany q
  obtain ⟨run', hrun', hpast⟩ := hexact.past
  have hhead : (skipBlanks (past (p.lexemes ++ [.mark ',']) (w ++ q))).head? ≠ some '[' := by
    rw [hpast, skipBlanks_blanks_append hrun']
    exact head?_skipBlanks_of_isSteady hq
  have hfirst : Before false s s (w ++ q) := Stands.of_current_eq_empty hcurrent _
  obtain ⟨run, hrun, _, hread⟩ :=
    hfirst.read_parameter_comma p hangles hparentheses hhead hexact
  have hbegun : p.touchesComma (w ++ q) = false := by
    rw [FormalParameter.touchesComma]
    rcases hapart with hnone | hcomma
    · simp [hnone]
    · have hne : past p.lexemes w ≠ [] := by
        obtain ⟨_, _, _, hafter, hfits, _⟩ := hlaid.past
        obtain ⟨c, cs, hchars, _⟩ := hfits.exists_cons
        simp [hafter, hchars]
      rw [hlaid.past_append_text, List.head?_append_of_ne_nil _ hne]
      simp [hcomma]
  have hblanks : AllBlank (run ++ run') := by
    simpa [AllBlank, or_imp, forall_and] using And.intro hrun hrun'
  rw [hbegun, hpast, ← List.append_assoc] at hread
  exact hread.trans (read_blanks_append_of_isSteady hblanks hcurrent hq)

end

/-! ## From the last parameter on -/

section

variable {s : OpenStatement} {w text text' : List Char}

/-- The last parameter, if there is one, is read up to the parenthesis. -/
theorem read_lastFormals (ps : List FormalParameter) (hps : ps.length ≤ 1)
    (hcurrent : s.current = "") (hangles : s.angles = 0) {l : Lexeme} (hfollows : l.Follows)
    {more : List Lexeme} {rest : List Char} (hlaid : Laid (formalLexemes ps ++ l :: more) text rest) :
    ∃ t after, Stands t (s.takeAll (ps.flatMap fun p => p.tokens "")) after ∧
      Laid (l :: more) after rest ∧ s.read text = t.read after := by
  have hstands : Stands s s text := .of_current_eq_empty hcurrent text
  match ps, hps with
  | [], _ => exact ⟨s, text, by simpa [takeAll] using hstands, hlaid, rfl⟩
  | [p], _ =>
      have hfirst : Before false s s text := hstands
      obtain ⟨t, after, ht, hafter, hread⟩ := hfirst.read_lastParameter p hangles hfollows hlaid
      have htokens : p.tokensFrom false text = p.tokens "" := rfl
      exact ⟨t, after, by simpa [htokens] using ht, hafter, hread⟩

theorem balanced_formals {ps : List FormalParameter} (hps : ps.length ≤ 1) :
    Balanced (formalLexemes ps) := by
  match ps, hps with
  | [], _ => exact .nil
  | [p], _ => exact p.balanced

/-- The statement of a signature before its last mark. -/
def Signature.ended (h : Signature) (gap : List Char) (tokens : List String) : OpenStatement :=
  (h.opened gap tokens).closed.takeAll (thrownTokens h.thrown)

/-- A signature is read from its last parameter on up to its last mark. -/
theorem Signature.read_toLastMark (h : Signature) (gap : List Char) (tokens : List String)
    {ps : List FormalParameter} (hps : ps.length ≤ 1) {rest : List Char}
    (hlaid : Laid (formalLexemes ps ++ h.closingLexemes) text rest) : ∃ t last,
      Stands t (h.ended gap (tokens ++ ps.flatMap fun p => p.tokens "")) last ∧
        Laid [.mark h.lastMark] last rest ∧ (h.opened gap tokens).read text = t.read last := by
  obtain ⟨t, mid, ht, hmid, hlast⟩ := read_lastFormals ps hps (h.current_opened gap tokens)
    (h.angles_opened gap tokens) (by simp [Lexeme.Follows]) hlaid
  rw [h.takeAll_opened] at ht
  have hclosing : Laid (h.closingLexemes ++ []) mid rest := by simpa [closingLexemes] using hmid
  obtain ⟨u, last, hu, hmark, hthrown⟩ :=
    h.read_thrown ht rfl rfl (h.mem_drop_opened gap _) hclosing
  exact ⟨u, last, hu, hmark, hlast.trans hthrown⟩

/-- The rest of a signature may be followed by annotated texts. -/
theorem Signature.annotated_closing (h : Signature) (gap : List Char) (tokens : List String)
    {ps : List FormalParameter} (hps : ps.length ≤ 1)
    (hlaid : Laid (formalLexemes ps ++ h.closingLexemes) (w ++ [h.lastMark]) [])
    (htexts : Annotated .front text text') :
    Annotated (.within (h.opened gap tokens)) (w ++ h.lastMark :: text)
      (w ++ h.lastMark :: text') := by
  have hsplit : formalLexemes ps ++ h.closingLexemes =
      (formalLexemes ps ++ .mark ')' :: thrownLexemes h.thrown) ++ [.mark h.lastMark] := by
    simp [closingLexemes, lastMark]
  have hbalanced : Balanced (formalLexemes ps ++ .mark ')' :: thrownLexemes h.thrown) :=
    (balanced_formals hps).append (.mark (by decide) (balanced_thrown h.thrown))
  have hread := fun start rest => @read_toLastMark start h gap tokens ps hps rest
  generalize (tokens ++ ps.flatMap fun p => p.tokens "") = all at hread
  have hzero : (h.ended gap all).parentheses = 0 := rfl
  have hlone : (h.ended gap all).isLoneName = false := isLoneName_closed _ (by simp)
  rw [hsplit] at hlaid hread
  cases hbody : h.hasBody with
  | false =>
      have hmark : h.lastMark = ';' := by simp [lastMark, hbody]
      rw [hmark] at hread hlaid ⊢
      have hsemicolon : ∀ start rest, Laid ((formalLexemes ps ++ .mark ')' ::
          thrownLexemes h.thrown) ++ [.mark ';']) start rest → ∃ after, Laid [] after rest ∧
            (h.opened gap tokens).read start =
              some (⟨(h.ended gap all).tokens, .semicolon⟩, after) := by
        intro start rest hstart
        obtain ⟨t, last, ht, hlast, hthrown⟩ := hread start rest hstart
        obtain ⟨after, hafter, hend⟩ := ht.read_semicolon hzero hlast
        exact ⟨after, hafter, hthrown.trans hend⟩
      exact .of_semicolon (hbalanced.append (.mark (by decide) .nil)) hsemicolon hlaid htexts
  | true =>
      have hmark : h.lastMark = '\x7b' := by simp [lastMark, hbody]
      rw [hmark] at hread hlaid ⊢
      have hblock : ∀ start rest, Laid ((formalLexemes ps ++ .mark ')' ::
          thrownLexemes h.thrown) ++ [.mark '\x7b']) start rest → ∃ body, Laid [] body rest ∧
            (h.opened gap tokens).read start =
              some (⟨(h.ended gap all).tokens, .block body (afterBracket '\x7b' '\x7d' 0 body)⟩,
                afterBracket '\x7b' '\x7d' 0 body) := by
        intro start rest hstart
        obtain ⟨t, last, ht, hlast, hthrown⟩ := hread start rest hstart
        obtain ⟨body, hinside, hend⟩ := ht.read_block hzero hlone hlast
        exact ⟨body, hinside, hthrown.trans hend⟩
      exact .of_block hbalanced hblock hlaid htexts

end

/-! ## Annotated parameters -/

/-- Two texts of parameters: the second one has annotations in front of
them.  No comma comes right behind the brackets of a name. -/
inductive AnnotatedParameters : List FormalParameter → List Char → List Char → Prop
  | none : AnnotatedParameters [] [] []
  | inserted {p : FormalParameter} {ps : List FormalParameter} {text text' : List Char}
      (a : Annotation) (h : AnnotatedParameters (p :: ps) text text') :
      AnnotatedParameters (p :: ps) text (a.text ++ ' ' :: text')
  | last {p : FormalParameter} {text : List Char} (hlaid : Laid p.lexemes text []) :
      AnnotatedParameters [p] text text
  | next {p q : FormalParameter} {ps : List FormalParameter} {w text text' : List Char}
      (hlaid : Laid (p.lexemes ++ [.mark ',']) w [])
      (hapart : p.dimensions = 0 ∨ (past p.lexemes w).head? ≠ some ',')
      (h : AnnotatedParameters (q :: ps) text text') :
      AnnotatedParameters (p :: q :: ps) (w ++ text) (w ++ text')

/-- Whether a name or an annotation comes first in a text. -/
def beginsName (text : List Char) : Bool := (skipGaps text).head?.any isPlain

section

variable {text : List Char} (h : beginsName text = true)
include h

theorem exists_cons_of_beginsName : ∃ c rest, skipGaps text = c :: rest ∧ isPlain c = true := by
  rw [beginsName] at h
  cases hgaps : skipGaps text with
  | nil => simp [hgaps] at h
  | cons c rest => exact ⟨c, rest, rfl, by simpa [hgaps] using h⟩

/-- An annotation may come in front of every name. -/
theorem Annotation.fits_of_beginsName (a : Annotation) : a.fits text = true := by
  obtain ⟨c, rest, hgaps, hplain⟩ := exists_cons_of_beginsName h
  have hne : c ≠ '(' := by rintro rfl; exact absurd hplain (by decide)
  simp [fits, hgaps, not_mayJoin_of_isPlain hplain, hne]

theorem isSteady_of_beginsName : isSteady text = true := by
  obtain ⟨c, rest, hgaps, hplain⟩ := exists_cons_of_beginsName h
  simp [isSteady, hgaps, not_mayJoin_of_isPlain hplain]

end

theorem Annotation.beginsName_append (a : Annotation) (q : List Char) :
    beginsName (a.text ++ q) = true := by
  have hself : skipGaps (a.text ++ q) = a.text ++ q :=
    skipGaps_cons_of_code (by decide) (by decide) _
  have hplain : isPlain '@' = true := by decide
  rw [beginsName, hself]
  simpa [ Annotation.text] using hplain

/-- A word begins with a character of names. -/
theorem beginsName_word (w : Word) {run : List Char} (hrun : AllBlank run) (q : List Char) :
    beginsName (run ++ (w.text.toList ++ q)) = true := by
  obtain ⟨c, cs, hchars, hplain, _⟩ := w.exists_cons
  obtain ⟨hblank, _, hslash, _⟩ := isPlain_iff.1 hplain
  rw [beginsName, skipGaps_blanks_append hrun, hchars, List.cons_append,
    skipGaps_cons_of_code hblank hslash]
  exact hplain

/-- A parameter begins with a name. -/
theorem FormalParameter.beginsName_append (p : FormalParameter) {more : List Lexeme}
    {w : List Char} (hlaid : Laid (p.lexemes ++ more) w []) (q : List Char) :
    beginsName (w ++ q) = true := by
  obtain ⟨v, ls, hlexemes⟩ := formalLexemes_cons p []
  rw [formalLexemes] at hlexemes
  rw [hlexemes] at hlaid
  obtain ⟨run, after, hrun, rfl, _⟩ := hlaid
  rw [List.append_assoc, Lexeme.chars, List.append_assoc]
  exact beginsName_word v hrun _

namespace AnnotatedParameters

variable {ps : List FormalParameter} {inside inside' : List Char}

/-- Both texts begin with a name or an annotation. -/
theorem beginsName_append (h : AnnotatedParameters ps inside inside') (hps : ps ≠ [])
    (q : List Char) : beginsName (inside ++ q) = true ∧ beginsName (inside' ++ q) = true := by
  induction h with
  | none => exact absurd rfl hps
  | inserted a _ ih =>
      refine ⟨(ih hps).1, ?_⟩
      rw [List.append_assoc]
      exact a.beginsName_append _
  | @last p inside hlaid =>
      have hlexemes : Laid (p.lexemes ++ []) inside [] := by simpa using hlaid
      have hname := p.beginsName_append hlexemes q
      exact ⟨hname, hname⟩
  | @next p _ _ w text text' hlaid _ _ _ =>
      rw [List.append_assoc, List.append_assoc]
      exact ⟨p.beginsName_append hlaid _, p.beginsName_append hlaid _⟩

/-- The parenthesis after parameters joins no token, nor does what begins
them. -/
theorem isSteady_append (h : AnnotatedParameters ps inside inside') {ls : List Lexeme}
    {closing : List Char} (hclosing : Laid (.mark ')' :: ls) closing []) (q : List Char) :
    isSteady (inside ++ (closing ++ q)) = true ∧ isSteady (inside' ++ (closing ++ q)) = true := by
  by_cases hps : ps = []
  · subst hps
    cases h
    obtain ⟨run, after, hrun, rfl, _⟩ := hclosing
    have hgaps : skipGaps ((run ++ ((Lexeme.mark ')').chars ++ after)) ++ q) =
        ')' :: (after ++ q) := by
      rw [List.append_assoc, skipGaps_blanks_append hrun]
      exact skipGaps_cons_of_code (by decide) (by decide) _
    have hjoin : mayJoin ')' = false := by decide
    simp only [List.nil_append, isSteady, hgaps, hjoin, Bool.not_false, Bool.true_or, and_self]
  · obtain ⟨hname, hname'⟩ := h.beginsName_append hps (closing ++ q)
    exact ⟨isSteady_of_beginsName hname, isSteady_of_beginsName hname'⟩

end AnnotatedParameters

/-- Lexemes keep apart from a closing parenthesis. -/
theorem Laid.fits_closing {ls : List Lexeme} {text rest : List Char}
    (h : Laid (.mark ')' :: ls) text rest) {l : Lexeme} (hl : l.Fits []) : l.Fits text := by
  obtain ⟨run, after, hrun, rfl, _⟩ := h
  have hhead : ∀ c, (run ++ ((Lexeme.mark ')').chars ++ after)).head? = some c →
      isBlank c = true ∨ c = ')' := by
    intro c hc
    cases run with
    | nil => exact .inr (Option.some.inj hc).symm
    | cons b run => exact .inl (hrun c (by rw [← Option.some.inj hc]; exact List.mem_cons_self))
  have hapart : ∀ c, isBlank c = true ∨ c = ')' →
      isPlain c = false ∧ isQuote c = false ∧ c ≠ '/' ∧ c ≠ '*' := by
    rintro c (hblank | rfl)
    · refine ⟨by simp [isPlain, hblank], isQuote_eq_false_of_isBlank hblank, ?_, ?_⟩ <;>
        (rintro rfl; exact absurd hblank (by decide))
    · decide
  cases l with
  | word w => exact fun c hc => ⟨(hapart c (hhead c hc)).1, (hapart c (hhead c hc)).2.1⟩
  | literal q => trivial
  | mark d =>
      exact ⟨hl.1, fun _ => ⟨fun hc => (hapart _ (hhead _ hc)).2.2.1 rfl,
        fun hc => (hapart _ (hhead _ hc)).2.2.2 rfl⟩⟩

/-- The parameters of a signature and what follows them are an annotated
text. -/
theorem Signature.annotated_parameters (h : Signature) (gap : List Char) (tokens : List String)
    {ps : List FormalParameter} {inside inside' closing text text' : List Char}
    (hinside : AnnotatedParameters ps inside inside')
    (hclosing : Laid h.closingLexemes (closing ++ [h.lastMark]) [])
    (htexts : Annotated .front text text') :
    Annotated (.within (h.opened gap tokens)) (inside ++ (closing ++ h.lastMark :: text))
      (inside' ++ (closing ++ h.lastMark :: text')) := by
  induction hinside generalizing tokens with
  | none =>
      have hall : Laid (formalLexemes [] ++ h.closingLexemes) (closing ++ [h.lastMark]) [] := hclosing
      exact h.annotated_closing gap tokens (by simp) hall htexts
  | inserted a hinside ih =>
      have hname := (hinside.beginsName_append (by simp) (closing ++ h.lastMark :: text')).2
      have hnext := Annotated.inserted a rfl (a.fits_of_beginsName hname) (ih tokens)
      simpa using hnext
  | @last p inside hlaid =>
      have hfirst : Laid p.lexemes (inside ++ (closing ++ [h.lastMark])) (closing ++ [h.lastMark]) := by
        simpa using hlaid.append_text fun l _ hl => hclosing.fits_closing hl
      have hall : Laid (formalLexemes [p] ++ h.closingLexemes)
          ((inside ++ closing) ++ [h.lastMark]) [] := by
        simpa [formalLexemes] using hfirst.trans hclosing
      simpa using h.annotated_closing gap tokens (by simp) hall htexts
  | @next p q ps w inside inside' hlaid hapart hinside ih =>
      obtain ⟨hname, _⟩ := hinside.beginsName_append (by simp) (closing ++ h.lastMark :: text)
      obtain ⟨_, hname'⟩ := hinside.beginsName_append (by simp) (closing ++ h.lastMark :: text')
      have hleads := p.leads_next (h.current_opened gap tokens) (h.angles_opened gap tokens)
        (by simp) hlaid hapart
      rw [h.takeAll_opened] at hleads
      simpa using Annotated.part hleads (isSteady_of_beginsName hname)
        (isSteady_of_beginsName hname') (ih _)

/-- **A signature with annotations in front of its parameters** is an
annotated text, whatever annotated texts follow. -/
theorem Signature.annotated (h : Signature) {opening inside inside' closing text text' : List Char}
    (hopening : Laid h.openingLexemes opening [])
    (hinside : AnnotatedParameters h.parameters inside inside')
    (hclosing : Laid h.closingLexemes (closing ++ [h.lastMark]) [])
    (htexts : Annotated .front text text') :
    Annotated .front (opening ++ (inside ++ (closing ++ h.lastMark :: text)))
      (opening ++ (inside' ++ (closing ++ h.lastMark :: text'))) := by
  have hrest := h.annotated_parameters (h.gap (skipBlanks opening)) [] hinside hclosing htexts
  have hsteady := (hinside.isSteady_append hclosing text).1
  have hsteady' := (hinside.isSteady_append hclosing text').2
  rw [List.append_assoc, List.singleton_append] at hsteady hsteady'
  exact .part (h.leads_opening hopening) hsteady hsteady' hrest

/-! ## A method -/

/-- A parameter without brackets. -/
def FormalParameter.plain (type name : Name) : FormalParameter :=
  ⟨false, ⟨Signature.plainType type, 0⟩, name, .named 0⟩

namespace Signature

/-- The first parameter of a method. -/
def count : FormalParameter :=
  .plain ⟨⟨"int", .refl true⟩, .refl false⟩ ⟨⟨"count", .refl true⟩, .refl false⟩

/-- The second parameter of a method. -/
def item : FormalParameter :=
  .plain ⟨⟨"Item", .refl true⟩, .refl false⟩ ⟨⟨"item", .refl true⟩, .refl false⟩

/-- A method with two parameters. -/
def adding : Signature where
  modifiers := [⟨"private", .refl true⟩]
  typeParameters := none
  type := some ⟨plainType ⟨⟨"int", .refl true⟩, .refl false⟩, 0⟩
  name := ⟨⟨"add", .refl true⟩, .refl false⟩
  parameters := [count, item]
  thrown := []
  hasBody := false
  complete := nofun

end Signature

end JavaOutline
