import JavaOutline.Proofs.Grammar.Variables

/-!
# JavaOutline.Proofs.Grammar.Headers

Headers of types as they are written.  The types after `implements` are one
token with commas (`takes_classTypes`), which is cut at the commas outside
of type arguments (`typeList_classTypes`), so the tokens of a header
(`takes_heading`) make up the header again (`TypeHeading.reading`).
-/

namespace JavaOutline

open Text OpenStatement

/-! ## Lists of types -/

/-- The lexemes of class types with a comma before each. -/
def moreClassTypes : List ClassType → List Lexeme
  | [] => []
  | t :: ts => .mark ',' :: (t.lexemes ++ moreClassTypes ts)

/-- The lexemes of class types with a comma between any two. -/
def classTypeLexemes (t : ClassType) (ts : List ClassType) : List Lexeme :=
  t.lexemes ++ moreClassTypes ts

/-- A list of class types stays together. -/
theorem read_classTypes (t : ClassType) (ts : List ClassType) {s : OpenStatement} {l : Lexeme}
    {more : List Lexeme} {text rest : List Char} (hparentheses : s.parentheses = 0)
    (hangles : s.angles = 0) (hcurrent : s.current ≠ "") (hat : s.atAnnotation = false)
    (hbegins : mayPrecedeTypeParameters (s.current ++ written (dotted t.name.more)) = false)
    (hapart : Apart text) (hfollows : l.Follows)
    (hlaid : Laid (t.tail ++ (moreClassTypes ts ++ l :: more)) text rest) : ∃ u after,
      Stands u (s.extend (written (t.tail ++ moreClassTypes ts))).endToken after ∧
        Laid (l :: more) after rest ∧ s.read text = u.read after := by
  induction ts generalizing s t text with
  | nil =>
      rw [moreClassTypes, List.append_nil]
      exact read_classType_ended t hangles hcurrent hat hbegins hapart hfollows hlaid
  | cons u us ih =>
      simp only [moreClassTypes, ClassType.lexemes, List.cons_append, List.append_assoc] at hlaid
      obtain ⟨mid, hmid, htail⟩ := read_classType_joined t hangles hcurrent hbegins hapart
        (.inr ⟨rfl, hparentheses⟩) hlaid
      have hzero : (s.extend (written t.tail)).parentheses = 0 := hparentheses
      obtain ⟨mid', hapart', hmid', hname⟩ := read_comma_word u.name.first.toWord hzero
        (extend_ne_empty hcurrent (written t.tail)) hmid
      rw [extend_extend] at hname
      have hmark : ',' ∈ ((s.extend (written t.tail ++ ("," ++ u.name.first.text))).current ++
          written (dotted u.name.more)).toList := by simp [extend]
      obtain ⟨v, after, hv, hafter, hread⟩ := ih u
        (s := s.extend (written t.tail ++ ("," ++ u.name.first.text))) hparentheses hangles
        (extend_ne_empty hcurrent _) (by rw [atAnnotation_extend hcurrent, hat])
        (not_mayPrecedeTypeParameters hmark (by decide)) hapart' hmid'
      have htext : written (t.tail ++ moreClassTypes (u :: us)) =
          written t.tail ++ ("," ++ u.name.first.text) ++ written (u.tail ++ moreClassTypes us) := by
        rw [moreClassTypes, written_append, written_cons, ClassType.lexemes, List.cons_append,
          written_word]
        simp only [String.append_assoc]
        rfl
      rw [extend_extend, ← htext] at hv
      exact ⟨v, after, hv, hafter, htail.trans (hname.trans hread)⟩

/-- A list of class types is one token. -/
theorem takes_classTypes (t : ClassType) (ts : List ClassType) {k : OpenStatement}
    (hparentheses : k.parentheses = 0) (hangles : k.angles = 0) :
    Takes Lexeme.Follows k (classTypeLexemes t ts) (k.take (written (classTypeLexemes t ts))) := by
  intro s l more text rest hs hfollows hlaid
  have hk := hs.current_eq
  simp only [classTypeLexemes, ClassType.lexemes, List.cons_append, List.append_assoc] at hlaid
  obtain ⟨mid, hapart, hmid, hword⟩ := hs.read_word hlaid
  have hcurrent : (k.extend t.name.first.text).current ≠ "" := by
    simp [extend, hk, t.name.first.ne_empty]
  have hat := t.name.first.notAt_extend hk
  have hbegins : mayPrecedeTypeParameters
      ((k.extend t.name.first.text).current ++ written (dotted t.name.more)) = false := by
    rw [extend, hk, String.empty_append]
    exact mayPrecedeTypeParameters_name t.name.first t.name.more
  obtain ⟨u, after, hu, hafter, hread⟩ := read_classTypes t ts (s := k.extend t.name.first.text)
    hparentheses hangles hcurrent hat hbegins hapart hfollows hmid
  have htext : written (classTypeLexemes t ts) =
      t.name.first.text ++ written (t.tail ++ moreClassTypes ts) := by
    rw [classTypeLexemes, ClassType.lexemes, List.cons_append, written_word]
  have htake : ((k.extend t.name.first.text).extend
      (written (t.tail ++ moreClassTypes ts))).endToken =
        k.take (written (classTypeLexemes t ts)) := by
    rw [endToken_of_current_ne_empty (extend_ne_empty hcurrent _)
      (by rw [atAnnotation_extend hcurrent, hat]), htext]
    simp [extend, take, hk]
  rw [htake] at hu
  exact ⟨u, after, hu, hafter, hword.trans hread⟩

/-! ## Cutting at commas -/

/-- Characters that no outer comma cuts, if they begin inside `depth` angle
brackets; they end inside `depth'`. -/
def KeptTogether (depth : Int) (cs : List Char) (depth' : Int) : Prop :=
  ∀ rest piece more, outerPieces depth' rest = piece :: more →
    outerPieces depth (cs ++ rest) = (cs ++ piece) :: more

namespace KeptTogether

variable {depth depth' depth'' : Int} {xs ys : List Char}

theorem nil : KeptTogether depth [] depth := fun _ _ _ h => h

theorem append (hxs : KeptTogether depth xs depth') (hys : KeptTogether depth' ys depth'') :
    KeptTogether depth (xs ++ ys) depth'' := by
  intro rest piece more h
  rw [List.append_assoc, List.append_assoc]
  exact hxs _ _ _ (hys rest piece more h)

theorem singleton {c : Char} (h : c = ',' → depth ≠ 0) :
    KeptTogether depth [c] (angleDepth depth c) := by
  intro rest piece more hrest
  have hcut : ¬ (c = ',' ∧ depth = 0) := fun hc => h hc.1 hc.2
  rw [List.singleton_append, outerPieces, if_neg hcut, hrest]
  rfl

end KeptTogether

theorem Word.keptTogether (w : Word) (depth : Int) : KeptTogether depth w.text.toList depth := by
  have hplain : ∀ cs : List Char, (∀ c ∈ cs, isPlain c = true) → KeptTogether depth cs depth := by
    intro cs hcs
    induction cs with
    | nil => exact .nil
    | cons c cs ih =>
        have hc := hcs c List.mem_cons_self
        have hcomma : c ≠ ',' := by rintro rfl; exact absurd hc (by decide)
        have hleft : c ≠ '<' := by rintro rfl; exact absurd hc (by decide)
        have hright : c ≠ '>' := by rintro rfl; exact absurd hc (by decide)
        have hfirst : KeptTogether depth [c] (angleDepth depth c) :=
          .singleton fun h => absurd h hcomma
        rw [angleDepth, if_neg hleft, if_neg hright] at hfirst
        exact hfirst.append (ih fun d hd => hcs d (List.mem_cons_of_mem c hd))
  exact hplain _ fun c hc => w.isPlain_of_mem hc

/-- A mark that is neither a comma nor an angle bracket. -/
theorem keptTogether_mark {c : Char} (hc : c ∈ ['.', '?', '[', ']']) (depth : Int) :
    KeptTogether depth [c] depth := by
  have hkinds : ∀ d ∈ ['.', '?', '[', ']'], d ≠ ',' ∧ d ≠ '<' ∧ d ≠ '>' := by decide
  obtain ⟨hcomma, hleft, hright⟩ := hkinds c hc
  have hfirst : KeptTogether depth [c] (angleDepth depth c) := .singleton fun h => absurd h hcomma
  rwa [angleDepth, if_neg hleft, if_neg hright] at hfirst

/-- What stands between angle brackets is not cut, and leaves the outer
bracket open. -/
theorem keptTogether_insideAngles {depth : Nat} {named : Bool} {ls : List Lexeme}
    (h : insideAngles depth named ls = true) :
    KeptTogether (depth + 1) (ls.flatMap Lexeme.chars) 1 := by
  induction ls generalizing depth named with
  | nil =>
      simp only [insideAngles, beq_iff_eq] at h
      subst h
      exact .nil
  | cons l ls ih =>
      rw [List.flatMap_cons]
      cases l with
      | literal q => simp [insideAngles] at h
      | word w =>
          simp only [insideAngles, Bool.and_eq_true] at h
          exact (w.keptTogether _).append (ih h.2)
      | mark c =>
          obtain ⟨d, hc, hls⟩ := insideAngles_mark h
          have hfirst : KeptTogether (depth + 1) [c] (angleDepth (depth + 1) c) :=
            .singleton (by omega)
          rw [hc.angleDepth_eq] at hfirst
          exact hfirst.append (ih hls)

theorem keptTogether_dotted (ws : List Word) :
    KeptTogether 0 ((dotted ws).flatMap Lexeme.chars) 0 := by
  induction ws with
  | nil => exact .nil
  | cons w ws ih =>
      have hname := (keptTogether_mark (c := '.') (by decide) 0).append
        ((w.keptTogether 0).append ih)
      simpa [dotted, Lexeme.chars] using hname

theorem keptTogether_arrayBrackets (n : Nat) :
    KeptTogether 0 ((arrayBrackets n).flatMap Lexeme.chars) 0 := by
  induction n with
  | zero => exact .nil
  | succ n ih =>
      have hpair := (keptTogether_mark (c := '[') (by decide) 0).append
        ((keptTogether_mark (c := ']') (by decide) 0).append ih)
      simpa [arrayBrackets, Lexeme.chars] using hpair

theorem ClassType.keptTogether (t : ClassType) :
    KeptTogether 0 (t.lexemes.flatMap Lexeme.chars) 0 := by
  have hname := (t.name.first.keptTogether 0).append (keptTogether_dotted t.name.more)
  cases harguments : t.arguments with
  | none => simpa [ClassType.lexemes, ClassType.tail, harguments, argumentLexemes,
      Lexeme.chars] using hname
  | some arguments =>
      have hopen : KeptTogether 0 ['<'] 1 := .singleton (by simp)
      have hclose : KeptTogether 1 ['>'] 0 := .singleton (by simp)
      have hbetween := hopen.append ((keptTogether_insideAngles arguments.inside).append hclose)
      have hall := hname.append hbetween
      simpa [ClassType.lexemes, ClassType.tail, harguments, argumentLexemes, Lexeme.chars]
        using hall

theorem WrittenType.keptTogether (t : WrittenType) :
    KeptTogether 0 (t.lexemes.flatMap Lexeme.chars) 0 := by
  rw [WrittenType.lexemes, List.flatMap_append]
  exact t.toClassType.keptTogether.append (keptTogether_arrayBrackets t.dimensions)

/-- A type is not cut. -/
theorem typeList_type (t : WrittenType) : typeList t.text = [t.text] := by
  obtain ⟨c, cs, htext, _⟩ := t.exists_cons
  have hpieces := t.keptTogether [] [] [] rfl
  rw [List.append_nil, ← toList_written, ← WrittenType.text] at hpieces
  have hnonempty : t.text.toList.isEmpty = false := by rw [htext, List.isEmpty_cons]
  rw [typeList, hpieces, List.filter_cons_of_pos (by rw [hnonempty]; rfl), List.filter_nil,
    List.map_singleton, String.ofList_toList]

/-- A list of class types is cut into the types. -/
theorem typeList_classTypes (t : ClassType) (ts : List ClassType) :
    typeList (written (classTypeLexemes t ts)) = t.text :: ts.map ClassType.text := by
  have hpieces : outerPieces 0 ((classTypeLexemes t ts).flatMap Lexeme.chars) =
      (t :: ts).map fun t => t.text.toList := by
    induction ts generalizing t with
    | nil =>
        have hlast := t.keptTogether [] [] [] rfl
        simpa [classTypeLexemes, moreClassTypes, ClassType.text] using hlast
    | cons u us ih =>
        have hcut : outerPieces 0 ((moreClassTypes (u :: us)).flatMap Lexeme.chars) =
            [] :: (u :: us).map fun t => t.text.toList := by
          have hmore := ih u
          rw [classTypeLexemes] at hmore
          rw [moreClassTypes, List.flatMap_cons, Lexeme.chars, List.singleton_append, outerPieces,
            if_pos (by simp), hmore]
        have hfirst := t.keptTogether _ _ _ hcut
        rw [classTypeLexemes, List.flatMap_append, hfirst]
        simp [ClassType.text]
  have hnonempty : ∀ u : ClassType, u.text.toList ≠ [] := by
    intro u
    obtain ⟨c, cs, hw, _⟩ := u.name.first.exists_cons
    simp [ClassType.text, ClassType.lexemes, Lexeme.chars, hw]
  have hfilter : (((t :: ts).map fun t => t.text.toList).filter fun piece => !piece.isEmpty) =
      (t :: ts).map fun t => t.text.toList := by
    rw [List.filter_eq_self]
    intro piece hpiece
    obtain ⟨u, _, rfl⟩ := List.mem_map.1 hpiece
    simpa using hnonempty u
  rw [typeList, toList_written, hpieces, hfilter, List.map_map]
  simp

/-! ## Headers of types -/

/-- The keyword of a kind as a word. -/
def TypeKind.word (kind : TypeKind) : Word := ⟨kind.keyword, by cases kind <;> decide⟩

/-- The word `extends`. -/
def extendsWord : Word := ⟨"extends", by decide⟩

/-- The word `implements`. -/
def implementsWord : Word := ⟨"implements", by decide⟩

/-- What is written of a type before its body. -/
structure TypeHeading where
  modifiers : List Modifier
  kind : TypeKind
  name : Name
  superType : Option WrittenType
  interfaces : List ClassType

/-- The lexemes of a type with `extends` before it. -/
def superLexemes : Option WrittenType → List Lexeme
  | none => []
  | some t => .word extendsWord :: t.lexemes

/-- The lexemes of class types with `implements` before them. -/
def interfaceLexemes : List ClassType → List Lexeme
  | [] => []
  | t :: ts => .word implementsWord :: classTypeLexemes t ts

/-- The tokens of a type with `extends` before it. -/
def superTokens : Option WrittenType → List String
  | none => []
  | some t => ["extends", t.text]

/-- The tokens of class types with `implements` before them. -/
def interfaceTokens : List ClassType → List String
  | [] => []
  | t :: ts => ["implements", written (classTypeLexemes t ts)]

namespace TypeHeading

/-- The lexemes of a header. -/
def lexemes (h : TypeHeading) : List Lexeme :=
  modifierLexemes h.modifiers ++ ([.word h.kind.word, .word h.name.toWord] ++
    (superLexemes h.superType ++ interfaceLexemes h.interfaces))

/-- The tokens of a header. -/
def tokens (h : TypeHeading) : List String :=
  h.modifiers.map Modifier.text ++ ([h.kind.keyword, h.name.text] ++
    (superTokens h.superType ++ interfaceTokens h.interfaces))

/-- What a header says. -/
def header (h : TypeHeading) : TypeHeader where
  kind := h.kind
  name := h.name.text
  superName := h.superType.map WrittenType.text
  interfaceNames := h.interfaces.map ClassType.text

end TypeHeading

theorem takes_superLexemes (superType : Option WrittenType) {k : OpenStatement}
    (hangles : k.angles = 0) :
    Takes Lexeme.Follows k (superLexemes superType) (k.takeAll (superTokens superType)) := by
  cases superType with
  | none => simpa [superLexemes, superTokens, takeAll] using Takes.nil
  | some t =>
      have htype := (takes_word k extendsWord).append
        (takes_type t (k := k.take extendsWord.text) hangles) (fun _ _ hl => hl)
        (by intro y hy; cases hy; trivial)
      simpa [superLexemes, superTokens, takeAll, take, extendsWord] using htype

theorem takes_interfaceLexemes (interfaces : List ClassType) {k : OpenStatement}
    (hparentheses : k.parentheses = 0) (hangles : k.angles = 0) :
    Takes Lexeme.Follows k (interfaceLexemes interfaces)
      (k.takeAll (interfaceTokens interfaces)) := by
  cases interfaces with
  | nil => simpa [interfaceLexemes, interfaceTokens, takeAll] using Takes.nil
  | cons t ts =>
      have hlist := (takes_word k implementsWord).append
        (takes_classTypes t ts (k := k.take implementsWord.text) hparentheses hangles)
        (fun _ _ hl => hl) (by intro y hy; cases hy; trivial)
      simpa [interfaceLexemes, interfaceTokens, takeAll, take, implementsWord] using hlist

/-- The header of a type is read word by word and type by type. -/
theorem takes_heading (h : TypeHeading) :
    Takes Lexeme.Follows start h.lexemes (start.takeAll h.tokens) := by
  have hwords := takes_words (start.takeAll (h.modifiers.map Modifier.text))
    [h.kind.word, h.name.toWord]
  have hsuper := takes_superLexemes h.superType
    (k := (start.takeAll (h.modifiers.map Modifier.text)).takeAll [h.kind.keyword, h.name.text]) rfl
  have hinterfaces := takes_interfaceLexemes h.interfaces
    (k := ((start.takeAll (h.modifiers.map Modifier.text)).takeAll
      [h.kind.keyword, h.name.text]).takeAll (superTokens h.superType)) rfl rfl
  have hfollows : ∀ (interfaces : List ClassType), ∀ y ∈ (interfaceLexemes interfaces).head?,
      y.Follows := by
    intro interfaces y hy
    cases interfaces with
    | nil => cases hy
    | cons t ts => cases hy; trivial
  have hrest := hsuper.append hinterfaces (fun _ _ hl => hl) (hfollows h.interfaces)
  have hbegin : ∀ y ∈ (superLexemes h.superType ++ interfaceLexemes h.interfaces).head?,
      y.Follows := by
    cases h.superType with
    | none => simpa [superLexemes] using hfollows h.interfaces
    | some t => intro y hy; cases hy; trivial
  have hnamed := hwords.append hrest (fun _ _ hl => hl) hbegin
  have hall := (takes_modifiers start h.modifiers).append hnamed (fun _ _ hl => hl)
    (by intro y hy; cases hy; trivial)
  simpa [TypeHeading.lexemes, TypeHeading.tokens, takeAll] using hall

/-- The header of a type is one statement up to the brace. -/
theorem scan_heading (h : TypeHeading) {more : List Lexeme} {text rest : List Char}
    (hlaid : Laid (h.lexemes ++ .mark '\x7b' :: more) text rest) : ∃ body, Laid more body rest ∧
      scan text = some (⟨h.tokens, .block body (afterBracket '\x7b' '\x7d' 0 body)⟩,
        afterBracket '\x7b' '\x7d' 0 body) := by
  have hlength : h.tokens.length ≠ 1 := by
    simp [TypeHeading.tokens]
    omega
  have hlone : (start.takeAll h.tokens).isLoneName = false := by simp [isLoneName, hlength]
  have hslash : h.lexemes.head? ≠ some (.mark '/') := by
    cases hmodifiers : h.modifiers <;> simp [TypeHeading.lexemes, hmodifiers, modifierLexemes]
  obtain ⟨body, hbody, hscan⟩ :=
    (takes_heading h).scan_block (by simp [Lexeme.Follows]) hslash rfl hlone hlaid
  exact ⟨body, hbody, by simpa using hscan⟩

/-- `extends` is found if it is there; `implements` is not taken for it. -/
theorem typesAfter_superTokens (superType : Option WrittenType) (interfaces : List ClassType) :
    typesAfter "extends" (superTokens superType ++ interfaceTokens interfaces) =
      ((superType.map WrittenType.text).toList, interfaceTokens interfaces) := by
  cases superType with
  | some t => simp [superTokens, typesAfter, typeList_type]
  | none =>
      cases interfaces with
      | nil => rfl
      | cons t ts => simp [superTokens, interfaceTokens, typesAfter]

theorem typesAfter_interfaceTokens (interfaces : List ClassType) :
    typesAfter "implements" (interfaceTokens interfaces) =
      (interfaces.map ClassType.text, []) := by
  cases interfaces with
  | nil => rfl
  | cons t ts => simp [interfaceTokens, typesAfter, typeList_classTypes]

theorem Word.unclosedAngles_eq (w : Word) : unclosedAngles w.text = 0 := by
  have hplain : ∀ cs : List Char, (∀ c ∈ cs, isPlain c = true) → ∀ depth : Int,
      cs.foldl angleDepth depth = depth := by
    intro cs hcs
    induction cs with
    | nil => simp
    | cons c cs ih =>
        intro depth
        have hc := hcs c List.mem_cons_self
        have hleft : c ≠ '<' := by rintro rfl; exact absurd hc (by decide)
        have hright : c ≠ '>' := by rintro rfl; exact absurd hc (by decide)
        rw [List.foldl_cons, angleDepth, if_neg hleft, if_neg hright]
        exact ih (fun d hd => hcs d (List.mem_cons_of_mem c hd)) depth
  exact hplain _ (fun c hc => w.isPlain_of_mem hc) 0

theorem Word.takeWhile_eq (w : Word) : w.text.toList.takeWhile (· != '<') = w.text.toList := by
  have hangle := w.not_mem (c := '<') (by decide)
  have hnot : ∀ c ∈ w.text.toList, (c != '<') = true := by
    intro c hc
    have hne : c ≠ '<' := by rintro rfl; exact hangle hc
    simpa using hne
  have hall : (w.text.toList ++ []).takeWhile (· != '<') =
      w.text.toList ++ List.takeWhile (· != '<') [] := List.takeWhile_append_of_pos hnot
  simpa using hall

/-- The tokens after the keyword make up the header. -/
theorem TypeHeading.ofTokens?_eq (h : TypeHeading) :
    TypeHeader.ofTokens? h.kind (h.name.text ::
      (superTokens h.superType ++ interfaceTokens h.interfaces)) = some h.header := by
  have hafter : ∀ tokens : List String,
      afterTypeParameters (unclosedAngles h.name.text) tokens = tokens := by
    intro tokens
    rw [h.name.unclosedAngles_eq]
    cases tokens <;> simp [afterTypeParameters]
  obtain ⟨c, cs, hw, _⟩ := h.name.exists_cons
  have hnonempty : h.name.text.toList.isEmpty = false := by rw [hw, List.isEmpty_cons]
  have hsuper : (h.superType.map WrittenType.text).toList.head? = h.superType.map WrittenType.text ∧
      (h.superType.map WrittenType.text).toList.tail = [] := by
    cases h.superType <;> simp
  rw [TypeHeader.ofTokens?]
  simp only [hafter, typesAfter_superTokens, typesAfter_interfaceTokens, h.name.takeWhile_eq,
    hnonempty, hsuper]
  simp [TypeHeading.header]

/-- A header declares its type.  In the body of a method it may not begin
with an inert modifier. -/
theorem TypeHeading.reading (h : TypeHeading) {level : Level}
    (hinert : level = .methodBody → ∀ x ∈ h.modifiers.head?, isInert x.text = false) :
    Reading.ofTokens level h.tokens = .declaring (.type h.header) := by
  rw [Reading.ofTokens, TypeHeading.tokens,
    Reading.ofTokensAfter_modifiers level _ _ _ _ (fun hl _ => hinert hl), List.cons_append,
    Reading.ofTokensAfter_kind, List.singleton_append, h.ofTokens?_eq]
  rfl

end JavaOutline
