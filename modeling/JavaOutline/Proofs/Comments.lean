import JavaOutline.Proofs.Alike
import Mathlib.Data.List.TakeWhile

/-!
# JavaOutline.Proofs.Comments

Comments in the place of blanks.

Everything that passes over blanks passes over comments as well (`Gap`), with one
exception: after some characters (`looksAhead`) the text is searched for the next
character that is not blank, and there a comment is what it begins with.  So two texts
that differ in one gap are followed from the part before it (`Parted`), and single steps
keep them so unless this part ends in such a character (`Parted.step`).

`readText_comments` says where a comment is as good as a blank, and that after each of
the characters there are texts where it is not.
-/

namespace JavaOutline

open Text

/-! ## Gaps -/

/-- A comment with its end. -/
inductive IsComment : List Char → Prop
  | line {content : List Char} (h : '\n' ∉ content) : IsComment ('/' :: '/' :: (content ++ ['\n']))
  | block {content : List Char} (h : WithoutClosing content) :
      IsComment ('/' :: '*' :: (content ++ ['*', '/']))

/-- What is passed over where blanks are. -/
structure Gap (gap : List Char) : Prop where
  begins : ∃ c rest, gap = c :: rest ∧ (isBlank c = true ∨ c = '/')
  skipGaps_append : ∀ q, skipGaps (gap ++ q) = skipGaps q
  afterBracket_append : ∀ (opening closing : Char) (depth : Nat) (q : List Char),
    isBlank opening = false → isBlank closing = false →
      afterBracket opening closing depth (gap ++ q) = afterBracket opening closing depth q
  initializerEnd_append : ∀ (o : OpenBrackets) (q : List Char),
    initializerEnd o (gap ++ q) = initializerEnd o q

theorem gap_blank : Gap [' '] where
  begins := ⟨' ', [], rfl, .inl (by decide)⟩
  skipGaps_append := skipGaps_blanks_append (by decide)
  afterBracket_append _ _ _ q hopening hclosing :=
    afterBracket_blanks_append _ _ _ hopening hclosing (by decide) q
  initializerEnd_append o := initializerEnd_blanks_append o (by decide)

/-- After its first slash a comment is passed over. -/
theorem IsComment.afterSlash_append {gap : List Char} (h : IsComment gap) :
    ∃ rest, gap = '/' :: rest ∧ ∀ q, afterSlash (rest ++ q) = q := by
  cases h with
  | @line content h =>
      refine ⟨_, rfl, fun q => ?_⟩
      simpa using afterSlash_lineComment h q
  | @block content h =>
      refine ⟨_, rfl, fun q => ?_⟩
      simpa using afterSlash_blockComment h q

theorem IsComment.gap {gap : List Char} (h : IsComment gap) : Gap gap := by
  obtain ⟨rest, rfl, hafter⟩ := h.afterSlash_append
  refine ⟨⟨'/', rest, rfl, .inr rfl⟩, fun q => ?_, fun opening closing depth q _ _ => ?_,
    fun o q => ?_⟩
  · rw [List.cons_append, skipGaps_slash, hafter]
  · rw [List.cons_append, afterBracket_slash, hafter]
  · rw [List.cons_append, initializerEnd_slash, hafter]

/-- A word of code does not begin in a text and end in a gap. -/
theorem Gap.isPrefixOf_append {gap word : List Char} (hgap : Gap gap)
    (hword : ∀ c ∈ word, isBlank c = false ∧ c ≠ '/') (w q : List Char) :
    word.isPrefixOf (w ++ (gap ++ q)) = word.isPrefixOf w := by
  induction word generalizing w with
  | nil => simp
  | cons c word ih =>
      obtain ⟨hblank, hslash⟩ := hword c List.mem_cons_self
      cases w with
      | nil =>
          obtain ⟨d, rest, rfl, hd⟩ := hgap.begins
          have hne : c ≠ d := by
            rintro rfl
            rcases hd with hd | hd
            · rw [hblank] at hd; cases hd
            · exact hslash hd
          simp [List.isPrefixOf, hne]
      | cons d w =>
          have hrest := ih (fun e he => hword e (List.mem_cons_of_mem c he)) w
          simp only [List.cons_append, List.isPrefixOf, hrest]

/-! ## Ends of texts -/

/-- The last character of a text that is not blank. -/
def lastCode? (text : List Char) : Option Char := (skipBlanks text.reverse).head?

/-- The characters after which the next character that is not blank is looked at. -/
def looksAhead (c : Char) : Bool := OpenStatement.mayJoin c || c == ')'

theorem lastCode?_append {before blanks : List Char} {c : Char} (hc : isBlank c = false)
    (hblanks : AllBlank blanks) : lastCode? (before ++ c :: blanks) = some c := by
  have hreverse : (before ++ c :: blanks).reverse = blanks.reverse ++ c :: before.reverse := by simp
  have hblanks' : AllBlank blanks.reverse := fun d hd => hblanks d (List.mem_reverse.1 hd)
  rw [lastCode?, hreverse, skipBlanks_blanks_append hblanks', skipBlanks_cons_of_not_isBlank hc]
  rfl

theorem looksAhead_iff {c : Char} :
    looksAhead c = true ↔ c ∈ ['.', ',', '<', '>', '[', ']', '?', ')'] := by
  simp [looksAhead, OpenStatement.mayJoin, or_assoc]

theorem isBlank_of_looksAhead {c : Char} (h : looksAhead c = true) : isBlank c = false := by
  rw [looksAhead_iff] at h
  revert c
  decide

/-! ## Texts that differ in a gap -/

/-- Two gaps after a text that may be taken for each other: the text has no quotes and no
slashes, and its end does not look at what comes after it, or sees slashes. -/
structure Interchangeable (p gap gap' : List Char) : Prop where
  plain : ∀ c ∈ p, isQuote c = false ∧ c ≠ '/'
  left : Gap gap
  right : Gap gap'
  ahead : (gap.head? = some '/' ∧ gap'.head? = some '/') ∨
    ∀ c ∈ lastCode? p, looksAhead c = false

/-- Two texts that are the same behind a gap, or differ in the gap, behind what is left
of the text before it. -/
inductive Parted (p gap gap' q : List Char) : List Char → List Char → Prop
  | behind (text : List Char) : Parted p gap gap' q text text
  | here : Parted p gap gap' q (gap ++ q) (gap' ++ q)
  | before {c : Char} {w : List Char} (h : c :: w <:+ p) :
      Parted p gap gap' q (c :: (w ++ (gap ++ q))) (c :: (w ++ (gap' ++ q)))

namespace Parted

variable {p gap gap' q w : List Char} {c : Char}

theorem of_suffix (h : w <:+ p) : Parted p gap gap' q (w ++ (gap ++ q)) (w ++ (gap' ++ q)) := by
  cases w with
  | nil => exact .here
  | cons c w => exact .before h

/-! ## Passing over -/

section

variable (hp : Interchangeable p gap gap')
include hp

/-- Behind blanks and comments the texts are the same, or go on before the gap. -/
theorem skipGaps (h : w <:+ p) : Parted p gap gap' q (JavaOutline.skipGaps (w ++ (gap ++ q)))
    (JavaOutline.skipGaps (w ++ (gap' ++ q))) := by
  induction w with
  | nil =>
      rw [List.nil_append, List.nil_append, hp.left.skipGaps_append, hp.right.skipGaps_append]
      exact .behind _
  | cons c w ih =>
      rw [List.cons_append, List.cons_append]
      cases hblank : isBlank c with
      | true =>
          rw [skipGaps_cons_of_isBlank hblank, skipGaps_cons_of_isBlank hblank]
          exact ih ((List.suffix_cons c w).trans h)
      | false =>
          have hslash := (hp.plain c (h.subset List.mem_cons_self)).2
          rw [skipGaps_cons_of_code hblank hslash, skipGaps_cons_of_code hblank hslash]
          exact .before h

theorem afterBracket {opening closing : Char} (hopening : isBlank opening = false)
    (hclosing : isBlank closing = false) (h : w <:+ p) (depth : Nat) :
    Parted p gap gap' q (JavaOutline.afterBracket opening closing depth (w ++ (gap ++ q)))
      (JavaOutline.afterBracket opening closing depth (w ++ (gap' ++ q))) := by
  induction w generalizing depth with
  | nil =>
      rw [List.nil_append, List.nil_append, hp.left.afterBracket_append _ _ _ _ hopening hclosing,
        hp.right.afterBracket_append _ _ _ _ hopening hclosing]
      exact .behind _
  | cons c w ih =>
      obtain ⟨hquote, hslash⟩ := hp.plain c (h.subset List.mem_cons_self)
      have hrest : w <:+ p := (List.suffix_cons c w).trans h
      have hnot : ¬isQuote c = true := by simp [hquote]
      rw [List.cons_append, List.cons_append,
        JavaOutline.afterBracket.eq_def opening closing depth (c :: _),
        JavaOutline.afterBracket.eq_def opening closing depth (c :: _)]
      dsimp only
      rw [if_neg hslash, if_neg hslash, if_neg hnot, if_neg hnot]
      split
      · exact ih hrest (depth + 1)
      split
      · cases depth with
        | zero => exact .of_suffix hrest
        | succ outer => exact ih hrest outer
      · exact ih hrest depth

theorem initializerEnd (h : w <:+ p) (o : OpenBrackets) :
    InitializerEndAlike (Parted p gap gap' q) (JavaOutline.initializerEnd o (w ++ (gap ++ q)))
      (JavaOutline.initializerEnd o (w ++ (gap' ++ q))) := by
  induction w generalizing o with
  | nil =>
      rw [List.nil_append, List.nil_append, hp.left.initializerEnd_append,
        hp.right.initializerEnd_append]
      cases JavaOutline.initializerEnd o q with
      | comma text => exact .comma (.behind text)
      | semicolon rest => exact .semicolon (.behind rest)
      | endOfText => exact .endOfText
  | cons c w ih =>
      obtain ⟨hquote, hslash⟩ := hp.plain c (h.subset List.mem_cons_self)
      have hrest : w <:+ p := (List.suffix_cons c w).trans h
      have hnot : ¬isQuote c = true := by simp [hquote]
      rw [List.cons_append, List.cons_append, JavaOutline.initializerEnd,
        JavaOutline.initializerEnd, if_neg hslash, if_neg hslash, if_neg hnot, if_neg hnot]
      split
      · exact .semicolon (.of_suffix hrest)
      split
      · exact .comma (.before h)
      · exact ih hrest (o.after c)

/-- What is seen ahead is the same. -/
theorem ahead (hc : looksAhead c = true) (h : c :: w <:+ p) :
    Parted p gap gap' q (skipBlanks (w ++ (gap ++ q))) (skipBlanks (w ++ (gap' ++ q))) ∧
      (skipBlanks (w ++ (gap ++ q))).head? = (skipBlanks (w ++ (gap' ++ q))).head? ∧
      OpenStatement.opensBody (skipBlanks (w ++ (gap ++ q))) =
        OpenStatement.opensBody (skipBlanks (w ++ (gap' ++ q))) := by
  cases hcode : skipBlanks w with
  | nil =>
      -- The gap comes next, so both of them begin with a slash.
      have hw : AllBlank w := List.dropWhile_eq_nil_iff.1 hcode
      obtain ⟨before, hbefore⟩ := h
      have hlast : lastCode? p = some c :=
        hbefore ▸ lastCode?_append (isBlank_of_looksAhead hc) hw
      rw [skipBlanks_blanks_append hw, skipBlanks_blanks_append hw]
      rcases hp.ahead with ⟨hgap, hgap'⟩ | hnone
      · obtain ⟨rest, rfl⟩ := List.head?_eq_some_iff.1 hgap
        obtain ⟨rest', rfl⟩ := List.head?_eq_some_iff.1 hgap'
        rw [List.cons_append, List.cons_append, skipBlanks_cons_of_not_isBlank (by decide),
          skipBlanks_cons_of_not_isBlank (by decide)]
        exact ⟨.here, rfl, rfl⟩
      · rw [hnone c hlast] at hc
        cases hc
  | cons d w' =>
      have hsplit : ∀ text, skipBlanks (w ++ text) = d :: (w' ++ text) := fun text => by
        rw [skipBlanks] at hcode ⊢
        simp [List.dropWhile_append, hcode]
      have hsuffix : d :: w' <:+ p :=
        hcode ▸ (List.dropWhile_suffix _).trans ((List.suffix_cons c w).trans h)
      have hthrows : "throws".toList.isPrefixOf (d :: (w' ++ (gap ++ q))) =
          "throws".toList.isPrefixOf (d :: (w' ++ (gap' ++ q))) :=
        (hp.left.isPrefixOf_append (by decide) (d :: w') q).trans
          (hp.right.isPrefixOf_append (by decide) (d :: w') q).symm
      rw [hsplit, hsplit, OpenStatement.opensBody, OpenStatement.opensBody, hthrows]
      exact ⟨.before hsuffix, rfl, rfl⟩

/-! ## One step -/

theorem boundary (h : c :: w <:+ p) (s : OpenStatement) :
    (s.boundary c (w ++ (gap ++ q))).1 = (s.boundary c (w ++ (gap' ++ q))).1 ∧
      Parted p gap gap' q (s.boundary c (w ++ (gap ++ q))).2 (s.boundary c (w ++ (gap' ++ q))).2 := by
  have hrest : w <:+ p := (List.suffix_cons c w).trans h
  refine OpenStatement.boundary_alike (fun hjoin => ?_)
    (fun _ => afterBracket hp (by decide) (by decide) hrest 0) (.before h) s
  obtain ⟨hskipped, hhead, -⟩ := ahead (q := q) hp (by rw [looksAhead, hjoin]; rfl) h
  exact ⟨hhead, hskipped, .of_suffix hrest⟩

theorem readEnding (h : w <:+ p) (s : OpenStatement) :
    AdvanceAlike (Parted p gap gap' q) (s.readEnding c (w ++ (gap ++ q)))
      (s.readEnding c (w ++ (gap' ++ q))) :=
  .readEnding (.of_suffix h) (afterBracket hp (by decide) (by decide) h 0)
    (initializerEnd hp h .none) (.behind []) s

/-- A step at blanks or a gap is a boundary at what follows them. -/
theorem afterGaps (h : w <:+ p) (s : OpenStatement) :
    AdvanceAlike (Parted p gap gap' q) (s.afterGaps (JavaOutline.skipGaps (w ++ (gap ++ q))))
      (s.afterGaps (JavaOutline.skipGaps (w ++ (gap' ++ q)))) := by
  have hgaps := skipGaps (q := q) hp h
  generalize hleft : JavaOutline.skipGaps (w ++ (gap ++ q)) = left at hgaps
  generalize JavaOutline.skipGaps (w ++ (gap' ++ q)) = right at hgaps
  cases hgaps with
  | behind text => exact .refl .behind _
  | here =>
      obtain ⟨c, rest, hgap, hc⟩ := hp.left.begins
      rw [hgap, List.cons_append] at hleft
      obtain ⟨hblank, hslash⟩ := not_gap_of_skipGaps_eq_cons hleft
      rw [hblank] at hc
      exact absurd (hc.resolve_left (by decide)) hslash
  | before h => exact .of_eq (boundary hp h s)

/-- A step before the gap. -/
theorem step_before (h : c :: w <:+ p) (s : OpenStatement) :
    AdvanceAlike (Parted p gap gap' q) (s.step c (w ++ (gap ++ q))) (s.step c (w ++ (gap' ++ q))) := by
  have hrest : w <:+ p := (List.suffix_cons c w).trans h
  cases s.step_cases c with
  | gap _ heq =>
      rw [heq, heq]
      exact afterGaps (w := c :: w) hp h s
  | boundary _ heq =>
      rw [heq, heq]
      exact .of_eq (boundary hp h s)
  | quote hquote _ =>
      rw [(hp.plain c (h.subset List.mem_cons_self)).1] at hquote
      cases hquote
  | closeParenthesis hclose _ heq =>
      obtain ⟨hskipped, -, hopens⟩ := ahead (q := q) hp (by rw [hclose]; rfl) h
      rw [heq, heq, OpenStatement.closeParenthesis, OpenStatement.closeParenthesis, hopens]
      exact .more hskipped
  | ending _ _ heq =>
      rw [heq, heq]
      exact readEnding hp hrest s
  | openParenthesis _ _ heq | angle _ heq | character _ _ _ heq =>
      rw [heq, heq]
      exact .more (.of_suffix hrest)

/-- Single steps keep two texts parted, or behind the gap. -/
theorem step (s : OpenStatement) (c d : Char) (rest rest' : List Char)
    (h : Parted p gap gap' q (c :: rest) (d :: rest')) :
    AdvanceAlike (Parted p gap gap' q) (s.step c rest) (s.step d rest') := by
  generalize hs : c :: rest = left at h
  generalize ht : d :: rest' = right at h
  cases h with
  | behind text =>
      cases hs.trans ht.symm
      exact .refl .behind _
  | here =>
      obtain ⟨e, tail, hgap, he⟩ := hp.left.begins
      obtain ⟨e', tail', hgap', he'⟩ := hp.right.begins
      have hboth := afterGaps (w := []) (q := q) hp (List.nil_suffix) s
      rw [List.nil_append, List.nil_append, ← hs, ← ht] at hboth
      rw [hgap] at hs
      rw [hgap'] at ht
      cases hs
      cases ht
      rwa [OpenStatement.step_of_gap he, OpenStatement.step_of_gap he']
  | before h =>
      cases hs
      cases ht
      exact step_before hp h s

/-- Scanning keeps two texts parted, or behind the gap. -/
theorem keptByScan : KeptByScan (Parted p gap gap' q) := by
  obtain ⟨e, tail, hgap, -⟩ := hp.left.begins
  obtain ⟨e', tail', hgap', -⟩ := hp.right.begins
  refine .of_step (fun text h => ?_) (fun c rest text h => ?_) (fun s t h => ?_) (step hp)
  · generalize hs : ([] : List Char) = s at h
    cases h with
    | behind => rfl
    | here => simp [hgap] at hs
    | before => cases hs
  · generalize hs : c :: rest = s at h
    cases h with
    | behind => exact ⟨c, rest, hs.symm⟩
    | here => exact ⟨e', tail' ++ q, by rw [hgap', List.cons_append]⟩
    | before => exact ⟨_, _, rfl⟩
  · cases h with
    | behind text => exact .behind _
    | here => exact skipGaps (w := []) hp List.nil_suffix
    | @before c w h => exact skipGaps (w := c :: w) hp h

end

end Parted

/-! ## Comments and blanks -/

/-- Two texts are read into the same registry with the same names, whatever the registry
and whether or not variables are wanted, and they have the same statements. -/
def ReadAlike (s t : String) : Prop :=
  (∀ (r : Registry) (withLocals : Bool), r.readText withLocals s = r.readText withLocals t) ∧
    (statements s.toList).map (fun found => found.1.shape) =
      (statements t.toList).map fun found => found.1.shape

theorem ReadAlike.trans {s t u : String} (h : ReadAlike s t) (h' : ReadAlike t u) : ReadAlike s u :=
  ⟨fun r withLocals => (h.1 r withLocals).trans (h'.1 r withLocals), h.2.trans h'.2⟩

theorem Interchangeable.readAlike {p gap gap' : String}
    (h : Interchangeable p.toList gap.toList gap'.toList) (q : String) :
    ReadAlike (p ++ gap ++ q) (p ++ gap' ++ q) := by
  have hparted : Parted p.toList gap.toList gap'.toList q.toList (p ++ gap ++ q).toList
      (p ++ gap' ++ q).toList := by
    simpa only [String.toList_append, List.append_assoc] using
      Parted.of_suffix (List.suffix_refl p.toList)
  have hkept := Parted.keptByScan (q := q.toList) h
  exact ⟨hkept.readText_eq hparted, hkept.shapes_eq hparted⟩

/-- A text without quotes and slashes. -/
def IsPlain (p : String) : Prop := ∀ c ∈ p.toList, isQuote c = false ∧ c ≠ '/'

instance (p : String) : Decidable (IsPlain p) :=
  inferInstanceAs (Decidable (∀ c ∈ p.toList, isQuote c = false ∧ c ≠ '/'))

/-- One comment is as good as another, wherever it stands. -/
theorem readAlike_comments {p gap gap' : String} (hp : IsPlain p) (hgap : IsComment gap.toList)
    (hgap' : IsComment gap'.toList) (q : String) : ReadAlike (p ++ gap ++ q) (p ++ gap' ++ q) := by
  have hslash : ∀ {text : List Char}, IsComment text → text.head? = some '/' := fun h => by
    obtain ⟨rest, rfl, -⟩ := h.afterSlash_append
    rfl
  have hboth : Interchangeable p.toList gap.toList gap'.toList :=
    ⟨hp, hgap.gap, hgap'.gap, .inl ⟨hslash hgap, hslash hgap'⟩⟩
  exact hboth.readAlike q

/-- For each character that looks ahead, a text that ends in it, and a text after which
it makes a difference whether a blank or a comment comes between them. -/
def tornApart : List (Char × String × String) :=
  [('.', "class A \x7b B.", "C x; \x7d"), (',', "class A \x7b int a,", "b; \x7d"),
    ('<', "class A \x7b L<", "B> x; \x7d"), ('>', "class A implements B<C>", ", D \x7b \x7d"),
    ('[', "class A \x7b int a[", "n]; \x7d"), (']', "class A \x7b int[]", "[] x; \x7d"),
    ('?', "class A \x7b L<?", "extends B> x; \x7d"), (')', "class A \x7b A()", "\x7b \x7d \x7d")]

theorem not_readAlike_tornApart : ∀ e ∈ tornApart, IsPlain e.2.1 ∧
    lastCode? e.2.1.toList = some e.1 ∧
    ¬ReadAlike (e.2.1 ++ "/**/" ++ e.2.2) (e.2.1 ++ " " ++ e.2.2) := by
  have hrecords : ∀ e ∈ tornApart, IsPlain e.2.1 ∧ lastCode? e.2.1.toList = some e.1 ∧
      (Registry.empty.readText true (e.2.1 ++ "/**/" ++ e.2.2)).1.toList ≠
        (Registry.empty.readText true (e.2.1 ++ " " ++ e.2.2)).1.toList := by
    decide +kernel
  intro e he
  obtain ⟨hplain, hlast, hne⟩ := hrecords e he
  exact ⟨hplain, hlast, fun halike => hne (by rw [halike.1])⟩

/-- **Where comments are blanks.**  Let a comment come between a text without quotes and
slashes and any other text.

1. Any other comment may stand in its place.
2. A blank may stand in its place if the last character before it that is not blank is
   none of `.`, `,`, `<`, `>`, `[`, `]`, `?` and `)`.
3. For each of these characters there is a text that ends in it, and a text to come
   behind, such that the comment may not be taken for a blank between these two. -/
theorem readText_comments {p gap : String} (hp : IsPlain p) (hgap : IsComment gap.toList)
    (q : String) :
    (∀ gap' : String, IsComment gap'.toList → ReadAlike (p ++ gap ++ q) (p ++ gap' ++ q)) ∧
    ((∀ c ∈ lastCode? p.toList, looksAhead c = false) →
      ReadAlike (p ++ gap ++ q) (p ++ " " ++ q)) ∧
    ∀ c, looksAhead c = true → ∃ before behind : String, IsPlain before ∧
      lastCode? before.toList = some c ∧
        ¬ReadAlike (before ++ gap ++ behind) (before ++ " " ++ behind) := by
  refine ⟨fun gap' hgap' => readAlike_comments hp hgap hgap' q, fun hlast => ?_, fun c hc => ?_⟩
  · have hboth : Interchangeable p.toList gap.toList " ".toList :=
      ⟨hp, hgap.gap, gap_blank, .inr hlast⟩
    exact hboth.readAlike q
  · have htexts : ∀ c ∈ ['.', ',', '<', '>', '[', ']', '?', ')'], ∃ e ∈ tornApart, e.1 = c := by
      decide
    obtain ⟨e, he, rfl⟩ := htexts c (looksAhead_iff.1 hc)
    obtain ⟨hplain, hlast, hnot⟩ := not_readAlike_tornApart e he
    -- The comment is as good as the one that tears the texts apart.
    have hempty : IsComment "/**/".toList := @IsComment.block [] (by decide)
    exact ⟨e.2.1, e.2.2, hplain, hlast, fun halike =>
      hnot ((readAlike_comments hplain hempty hgap e.2.2).trans halike)⟩

/-- A comment with a brace between the name of a field and the semicolon. -/
theorem readText_comments_field :
    IsPlain "class A \x7b int a" ∧ IsComment "/* \x7d */".toList ∧
      (∀ c ∈ lastCode? "class A \x7b int a".toList, looksAhead c = false) ∧
      ReadAlike ("class A \x7b int a" ++ "/* \x7d */" ++ "; \x7d")
        ("class A \x7b int a" ++ " " ++ "; \x7d") := by
  have hplain : IsPlain "class A \x7b int a" := by decide +kernel
  have hcomment : IsComment "/* \x7d */".toList :=
    @IsComment.block [' ', '\x7d', ' '] (by decide)
  have hcode : lastCode? "class A \x7b int a".toList = some 'a' := by decide +kernel
  have hlast : ∀ c ∈ lastCode? "class A \x7b int a".toList, looksAhead c = false := by
    rw [hcode]
    rintro c ⟨⟩
    decide
  exact ⟨hplain, hcomment, hlast, (readText_comments hplain hcomment "; \x7d").2.1 hlast⟩

/-- Between the parameters of a constructor and its body a comment is no blank: the
constructor is taken for a constant. -/
theorem not_blank_after_parameters :
    let members := fun text : String =>
      (Registry.empty.readText true text).1.toList.map fun t =>
        (t.fields.map fun f => f.name, t.methods.map fun m => m.name)
    members "class A \x7b A() /**/ \x7b \x7d \x7d" = [(["A"], [])] ∧
      members "class A \x7b A()   \x7b \x7d \x7d" = [([], ["A"])] := by
  decide +kernel

end JavaOutline
