import JavaOutline.Proofs.Grammar.GenericHeadings

/-!
# JavaOutline.Proofs.Grammar.AnnotatedSignatures

Annotations in front of methods and constructors with type parameters, and the
theorem on all annotations.

The bracket that type parameters begin with goes on with the token of an
annotation without arguments.  The list goes on with it too, unless two words
come side by side in it, and is dropped with the annotation
(`read_joinedTypeParameters`).  The list says nothing, so the member is the
same (`Annotation.exchangeable`).
-/

namespace JavaOutline

open Text OpenStatement

variable {s : OpenStatement} {l : Lexeme} {more : List Lexeme} {text rest : List Char}

/-- The bracket that closes type parameters ends the token of an annotation that
they go on with, and the token is dropped. -/
theorem read_closing_annotation {token : String} (htoken : token.toList.head? = some '@')
    (hcurrent : s.current = "") (hangles : s.angles = 0) (hfollows : l.Follows)
    (hlaid : Laid (.mark '>' :: l :: more) text rest) : ∃ after, Laid (l :: more) after rest ∧
      ({ s with current := token, angles := 1 } : OpenStatement).read text = s.read after := by
  obtain ⟨others, hothers⟩ := List.head?_eq_some_iff.1 htoken
  obtain ⟨after, hafter, hlast⟩ := read_joined_closing
    (s := { s with current := token, angles := 1 }) (ne_empty_of_head? htoken) (by decide)
    (by decide) (by simp [joins, closesToken, countAngle, hfollows.head?_ne]) hlaid
  have hclosed : (({ s with current := token, angles := 1 } : OpenStatement).countAngle '>').push
      '>' = { s with current := token.push '>' } := by simp [countAngle, push, hangles]
  rw [hclosed, endToken_annotation (by simp [hothers]) hcurrent] at hlast
  exact ⟨after, hafter, hlast⟩

/-- Type parameters in which no two words come side by side are dropped with the
annotation without arguments in front of them. -/
theorem read_joinedTypeParameters {token : String} (htoken : token.toList.head? = some '@')
    (hcurrent : s.current = "") (hangles : s.angles = 0) {types : TypeParameters}
    (hjoined : insideAngles 0 true types.more = true) (hfollows : l.Follows)
    (hlaid : Laid (types.lexemes ++ l :: more) text rest) : ∃ after, Laid (l :: more) after rest ∧
      ({ s with current := token } : OpenStatement).read text = s.read after := by
  obtain ⟨others, hothers⟩ := List.head?_eq_some_iff.1 htoken
  have hunmodified : mayPrecedeTypeParameters token = false :=
    not_mayPrecedeTypeParameters (c := '@') (by simp [hothers]) (by decide)
  have hsplit : types.lexemes ++ l :: more =
      .mark '<' :: .word types.first.toWord :: (types.more ++ .mark '>' :: l :: more) := by
    simp [TypeParameters.lexemes]
  rw [hsplit] at hlaid
  have hone : angleDepth s.angles '<' = 1 := by rw [hangles]; rfl
  obtain ⟨first, hfirst, htight, hbracket⟩ :=
    read_joined_open (s := { s with current := token }) (ne_empty_of_head? htoken) hunmodified
      (by decide) (by simp [hone]) hlaid
  obtain ⟨mid, _, hmid, hname⟩ := read_joined_word
    (s := { s with current := token.push '<', angles := 1 }) hfirst htight
  have hangle : '<' ∈ (token.push '<' ++ types.first.text).toList := by simp
  obtain ⟨closing, hclosing, hinside⟩ := read_insideAngles (s := { s with
    current := token.push '<' ++ types.first.text, angles := 1 }) hjoined rfl hangle (by simp) hmid
  -- The token holds the whole list and begins as before.
  have hlist : (token.push '<' ++ types.first.text ++ written types.more).toList.head? =
      some '@' := by simp [hothers]
  obtain ⟨after, hafter, hlast⟩ :=
    read_closing_annotation hlist hcurrent hangles hfollows hclosing
  rw [hone] at hbracket
  exact ⟨after, hafter, hbracket.trans (hname.trans (hinside.trans hlast))⟩

/-! ## In front of a member -/

/-- Whether a member is the same with an annotation in front of it: the annotation
has arguments, or a modifier comes next, or there is no list of type parameters in
which two words come side by side. -/
def Annotation.precedes (a : Annotation) (h : Signature) : Bool :=
  a.arguments.isSome || !h.modifiers.isEmpty ||
    h.typeParameters.all fun types => insideAngles 0 true types.more

/-- After an annotation a member is read, from its type parameters on or from what
comes after them. -/
theorem Annotation.scan_member (a : Annotation) (h : Signature) (hprecedes : a.precedes h = true)
    (hlaid : Laid (h.openingLexemes ++ more) text rest) : ∃ types member,
      Laid ({ h with typeParameters := types } : Signature).openingLexemes member
        (past h.openingLexemes text) ∧
      scan (a.text ++ ' ' :: text) = start.read member := by
  have hself : skipGaps (a.text ++ ' ' :: text) = a.text ++ ' ' :: text :=
    skipGaps_cons_of_code (by decide) (by decide) _
  have hexact := hlaid.exact (by simp [Signature.openingLexemes])
  have hblank := hexact.blank (c := ' ') (by decide)
  rw [scan, hself]
  cases harguments : a.arguments.isSome with
  | true => exact ⟨h.typeParameters, ' ' :: text, hblank, a.read_arguments harguments rfl text⟩
  | false =>
      rcases h.openingLexemes_eq with ⟨w, ls, hword⟩ | ⟨types, hmodifiers, htypes, hlist⟩
      · have hname : beginsName text = true := by
          rw [hword] at hlaid
          obtain ⟨run, after, hrun, rfl, _⟩ := hlaid
          exact beginsName_word w hrun after
        exact ⟨h.typeParameters, text, hexact, a.read_eq rfl (a.fits_of_beginsName hname)⟩
      · have hnone : a.arguments = none := by simpa using harguments
        have hjoined : insideAngles 0 true types.more = true := by
          simpa [precedes, hnone, hmodifiers, htypes] using hprecedes
        obtain ⟨token, htoken, hread⟩ := a.read_token (s := start) hnone rfl text
        obtain ⟨w, ls, hmember⟩ := h.memberLexemes_head?
        generalize past h.openingLexemes text = inside at hblank ⊢
        rw [hlist, hmember] at hblank
        obtain ⟨member, hmemberLaid, hjoin⟩ :=
          read_joinedTypeParameters (s := start) (l := .word w) htoken rfl rfl hjoined trivial hblank
        have hopening : ({ h with typeParameters := none } : Signature).openingLexemes =
            .word w :: (ls ++ [.mark '(']) := by
          rw [← List.cons_append, ← hmember]
          simp [Signature.openingLexemes, Signature.namedLexemes, hmodifiers, modifierLexemes,
            Signature.typeParameterLexemes, Signature.memberLexemes]
        refine ⟨none, member, ?_, hread.trans hjoin⟩
        rw [hopening]
        exact hmemberLaid

/-- A member that is read from another text, up to the same parenthesis, says the
same with type parameters and without them. -/
theorem Signature.read_same (h : Signature) (types : Option TypeParameters) {member : List Char}
    (hlaid : Laid h.lexemes text rest)
    (hmember : Laid ({ h with typeParameters := types } : Signature).openingLexemes member
      (past h.openingLexemes text)) :
    ∃ tokens next, Laid [] next (past h.lexemes text) ∧
      start.read member = some (⟨tokens, h.ending next⟩, h.resume next) ∧
        Reading.ofTokens .typeBody tokens = Reading.ofTokens .typeBody (h.tokensIn text) := by
  have hall : Laid (h.lexemes ++ []) text rest := by simpa using hlaid
  have hexact := hall.exact (by simp [lexemes, openingLexemes])
  have hclosing : Laid (formalLexemes h.parameters ++ h.closingLexemes)
      (past h.openingLexemes text) (past h.lexemes text) := Laid.past hexact
  let g : Signature := { h with typeParameters := types }
  have hrest : Laid (g.lexemes ++ []) member (past h.lexemes text) := by
    rw [List.append_nil]
    exact hmember.trans hclosing
  obtain ⟨next, hnext, hread⟩ := g.read_eq hrest
  refine ⟨_, next, hnext, hread, ?_⟩
  -- The parameters come after blanks only.
  have hmember' : Laid (g.openingLexemes ++ []) member (past h.openingLexemes text) := by
    simpa using hmember
  obtain ⟨run, hrun, hinside⟩ := hmember'.past
  rw [g.reading (g.gap_eq_blank _), tokensIn, h.reading (h.gap_eq_blank _), hinside,
    formalTokens_blanks_append g.parameters hrun (by simp)]
  rfl

/-- A member with an annotation in front of it may stand for the member. -/
theorem Annotation.exchangeable (a : Annotation) (h : Signature) (hprecedes : a.precedes h = true)
    (hlaid : Laid h.lexemes text rest) :
    Exchangeable .typeBody (a.text ++ ' ' :: text) text := by
  have hopening : Laid (h.openingLexemes ++ (formalLexemes h.parameters ++ h.closingLexemes)) text
      rest := hlaid
  obtain ⟨types, member, hmember, hscan⟩ := a.scan_member h hprecedes hopening
  obtain ⟨tokens, next, hnext, hread, hreading⟩ := h.read_same types hlaid hmember
  rw [hread] at hscan
  have hlast := hlaid
  rw [h.lexemes_eq] at hlast hnext
  have hwhole : text <:+ a.text ++ ' ' :: text :=
    (List.suffix_cons ' ' text).trans (List.suffix_append a.text _)
  have heq := hlast.eq_past hnext hwhole (h.suffix_of_scan hscan)
  rw [← h.lexemes_eq] at heq
  rw [heq] at hscan
  refine .of_scan (fun depth => ?_) hscan (h.scan_eq_past hlaid rfl) hreading (by simp)
  have hpassed := a.passed depth text
  rwa [List.append_assoc, List.singleton_append] at hpassed

/-! ## Annotations are transparent -/

/-- **Annotations are transparent** where reading stands between two tokens:
texts that differ in such annotations are read into the same registry.
Reading stands there in front of every statement, so of every member and of
the first constant, and in front of every parameter of a signature, if no
comma comes right behind the brackets of a name.  An annotation in front of the
type parameters of a member is transparent too, if it has arguments or the list
goes on with its token. -/
theorem readText_annotations (r : Registry) (withLocals : Bool) :
    (∀ {t t' : String}, Annotated .front t.toList t'.toList →
      r.readText withLocals t' = r.readText withLocals t) ∧
    (∀ (a : Annotation) {text text' : List Char}, a.fits text' = true →
      Annotated .front text text' → Annotated .front text (a.text ++ ' ' :: text')) ∧
    (∀ (h : Signature) {opening inside inside' closing text text' : List Char},
      Laid h.openingLexemes opening [] → AnnotatedParameters h.parameters inside inside' →
        Laid h.closingLexemes (closing ++ [h.lastMark]) [] → Annotated .front text text' →
          Annotated .front (opening ++ (inside ++ (closing ++ h.lastMark :: text)))
            (opening ++ (inside' ++ (closing ++ h.lastMark :: text')))) ∧
    ∀ (a : Annotation) (h : Signature) {before x rest : List Char} {levels : List Level}
      {t t' : String}, a.precedes h = true → Route [] before levels →
        levelOf levels = .typeBody → Laid h.lexemes x rest →
          Annotated .front (before ++ x) t.toList →
            Annotated .front (before ++ (a.text ++ ' ' :: x)) t'.toList →
              r.readText withLocals t' = r.readText withLocals t := by
  refine ⟨fun hannotated => ?_, fun a _ _ hfits hannotated => ?_, ?_, ?_⟩
  · exact (Annotated.keptByScan.readText_eq hannotated r withLocals).symm
  · exact .inserted a rfl hfits hannotated
  · exact fun h => h.annotated
  · intro a h before x rest levels t t' hprecedes hroute hlevel hlaid ht ht'
    exact (a.exchangeable h hprecedes hlaid).readText_eq hroute hlevel ht' ht r withLocals

/-- An annotation of one word. -/
def Annotation.plain (w : Word) : Annotation := ⟨w, [], none⟩

/-- An annotation with a string that holds a parenthesis. -/
def Annotation.quoting (w : Word) : Annotation where
  first := w
  more := []
  arguments := some ⟨['"', ')', '"'],
    @Closed.literal _ '"' [')'] [] (by decide) (.plain (by decide) (by decide) .nil) .nil⟩

/-- A method with type parameters in which no two words come side by side. -/
def Signature.addingAny : Signature :=
  { Signature.adding with
    modifiers := []
    typeParameters := some ⟨⟨⟨"T", .refl true⟩, .refl false⟩,
      [.mark ',', .word ⟨"U", .refl true⟩], .refl true⟩ }

/-- The parameters of a method with annotations in front of them. -/
theorem AnnotatedParameters.adding (x y : Annotation) :
    AnnotatedParameters Signature.adding.parameters ("int count ,".toList ++ "Item item".toList)
      (x.text ++ ' ' :: ("int count ,".toList ++
        (x.text ++ ' ' :: (y.text ++ ' ' :: "Item item".toList)))) := by
  have hspaced : ∀ (ls : List Lexeme), ls.all Lexeme.isFormed = true → Laid ls (spaced ls) [] :=
    fun _ hls => laid_spaced (isMark_of_all_isFormed hls)
  have hcount := hspaced (Signature.count.lexemes ++ [.mark ',']) (by decide +kernel)
  have hitem := hspaced Signature.item.lexemes (by decide +kernel)
  exact .inserted x (.next hcount (.inl rfl) (.inserted x (.inserted y (.last hitem))))

/-- An enum with annotations in front of a constant, a method and its
parameters, and a class with one in front of type parameters. -/
theorem readText_annotations_enum :
    let plain := "enum E \x7bA , B ;private int add (int count ,Item item) ;\x7d"
    let annotated := "enum E \x7b@X A , B ;@Y(\")\") private int add (@X int count ," ++
      "@X @Y(\")\") Item item) ;\x7d"
    let generic := "class A \x7b< T , U > int add ( int count , Item item ) ; \x7d"
    let noted := "class A \x7b@X < T , U > int add ( int count , Item item ) ; \x7d"
    Annotated .front plain.toList annotated.toList ∧
      Registry.empty.readText true annotated = Registry.empty.readText true plain ∧
        Registry.empty.readText true noted = Registry.empty.readText true generic := by
  intro plain annotated generic noted
  obtain ⟨hread, hfront, hparameters, hgeneric⟩ := readText_annotations Registry.empty true
  have hspaced : ∀ (ls : List Lexeme) (text : List Char), ls.all Lexeme.isFormed = true →
      spaced ls = text → Laid ls text [] := by
    rintro ls text hls rfl
    exact laid_spaced (isMark_of_all_isFormed hls)
  let x := Annotation.plain ⟨"X", .refl true⟩
  let y := Annotation.quoting ⟨"Y", .refl true⟩
  -- The text is built up from its end.
  have hopening : Laid Signature.adding.openingLexemes "private int add (".toList [] :=
    hspaced _ _ (by decide +kernel) (by decide +kernel)
  have hclosing : Laid Signature.adding.closingLexemes (") ".toList ++ [';']) [] :=
    hspaced _ _ (by decide +kernel) (by decide +kernel)
  have hmethod := hparameters Signature.adding hopening (.adding x y) hclosing (.same .front ['\x7d'])
  have hnames : Laid ((.word ⟨"A", .refl true⟩ :: moreNames [⟨⟨"B", .refl true⟩, .refl false⟩]) ++
      [.mark ';']) ("A , B ".toList ++ [';']) [] :=
    hspaced _ _ (by decide +kernel) (by decide +kernel)
  have hconstants := annotated_names (hfront y (by decide +kernel) hmethod)
    ⟨⟨"A", .refl true⟩, .refl false⟩ _ (.inl rfl) hnames
  have hheading : Laid ((⟨[], .enumType, ⟨⟨"E", .refl true⟩, .refl false⟩, none, []⟩ :
      TypeHeading).lexemes ++ [.mark '\x7b']) ("enum E ".toList ++ ['\x7b']) [] :=
    hspaced _ _ (by decide +kernel) (by decide +kernel)
  have henum := TypeHeading.annotated (hfront x (by decide +kernel) hconstants) _ hheading
  have hplain : "enum E ".toList ++ '\x7b' :: ("A , B ".toList ++ ';' :: ("private int add (".toList ++
      (("int count ,".toList ++ "Item item".toList) ++ (") ".toList ++ ';' :: ['\x7d'])))) =
        plain.toList := by decide +kernel
  have hannotated : "enum E ".toList ++ '\x7b' :: (x.text ++ ' ' :: ("A , B ".toList ++ ';' ::
      (y.text ++ ' ' :: ("private int add (".toList ++ ((x.text ++ ' ' :: ("int count ,".toList ++
        (x.text ++ ' ' :: (y.text ++ ' ' :: "Item item".toList)))) ++
          (") ".toList ++ ';' :: ['\x7d'])))))) = annotated.toList := by decide +kernel
  have hall : Annotated .front plain.toList annotated.toList := by
    rw [← hplain, ← hannotated]
    exact henum
  have hlaid : Laid Signature.addingAny.lexemes
      (spaced Signature.addingAny.lexemes ++ ' ' :: ['\x7d']) ['\x7d'] :=
    laid_spaced_blank (by decide +kernel) _
  have hnoted : Registry.empty.readText true noted = Registry.empty.readText true generic :=
    hgeneric x Signature.addingAny (by decide +kernel) GenericHeading.route_classA rfl hlaid
      (.of_eq (by decide +kernel)) (.of_eq (by decide +kernel))
  exact ⟨hall, hread hall, hnoted⟩

/-- A comma that joins constants takes an annotation after it into the token,
and so does the bracket of type parameters with bounds after an annotation
without arguments. -/
theorem not_readText_annotations :
    let members := fun text : String =>
      (Registry.empty.readText true text).1.toList.map fun t =>
        (t.fields.map fun f => f.name, t.methods.map fun m => m.name)
    members "enum E \x7b A, @X B; int x; \x7d" = [(["B", "x"], [])] ∧
      members "enum E \x7b A, B; int x; \x7d" = [(["A", "B", "x"], [])] ∧
        members "class A \x7b @X <T extends C<T>> void f() \x7b \x7d \x7d" = [([], [])] ∧
          members "class A \x7b <T extends C<T>> void f() \x7b \x7d \x7d" = [([], ["f"])] := by
  decide +kernel

end JavaOutline
