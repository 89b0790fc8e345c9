import JavaOutline.Export.Listing
import JavaOutline.Proofs.Wording
import JavaOutline.Word

/-!
# JavaOutline.Proofs.ListingLines

The lines of members in a listing are read back.

* A variable is written as up to four words, which tell by their number and by the
  word behind the name what they are (`Variable.ofWords?`).
* A method is a variable with its parameters in parentheses behind the name, and the
  parentheses of parameters are closed in them (`Method.ofText?`).  A field has no
  parenthesis in its first word (`ListingLine.ofText?`).

Names and types must be such that they can be told apart (`IsListable`), as all
identifiers are (`isListable_of_isIdentifier`).
-/

namespace JavaOutline

open Wording

/-! ## Texts that stand as words -/

/-- Whether a text is one word of one line. -/
structure IsUnbroken (w : String) : Prop where
  noBlank : ' ' ∉ w.toList
  noBreak : '\n' ∉ w.toList

instance (w : String) : Decidable (IsUnbroken w) :=
  decidable_of_iff (' ' ∉ w.toList ∧ '\n' ∉ w.toList) ⟨fun h => ⟨h.1, h.2⟩, fun h => ⟨h.1, h.2⟩⟩

theorem IsUnbroken.comma (w : String) (h : IsUnbroken w) : IsUnbroken (w ++ ",") := by
  constructor <;> simp [h.noBlank, h.noBreak]

/-- What items in a listing are made of. -/
structure IsWord (w : String) : Prop where
  unbroken : IsUnbroken w
  noComma : beforeComma? w = none
  balanced : Balanced w.toList

/-- Whether a text can stand for a name or a type in a listing. -/
structure IsListable (s : String) : Prop where
  nonempty : s ≠ ""
  unbroken : IsUnbroken s
  noOpening : '(' ∉ s.toList
  noClosing : ')' ∉ s.toList
  noComma : s.toList.getLast? ≠ some ','

instance (s : String) : Decidable (IsListable s) :=
  decidable_of_iff (s ≠ "" ∧ IsUnbroken s ∧ '(' ∉ s.toList ∧ ')' ∉ s.toList ∧
      s.toList.getLast? ≠ some ',')
    ⟨fun ⟨h1, h2, h3, h4, h5⟩ => ⟨h1, h2, h3, h4, h5⟩,
      fun ⟨h1, h2, h3, h4, h5⟩ => ⟨h1, h2, h3, h4, h5⟩⟩

theorem IsListable.isWord {s : String} (h : IsListable s) : IsWord s where
  unbroken := h.unbroken
  noComma := if_neg h.noComma
  balanced := balanced_of_not_mem h.noOpening h.noClosing

/-- Every identifier can stand for a name. -/
theorem isListable_of_isIdentifier {s : String} (h : isIdentifier s.toList = true) :
    IsListable s := by
  have hall : ∀ c ∈ s.toList, continuesIdentifier c = true := by
    cases hs : s.toList with
    | nil => simp
    | cons c rest =>
      rw [hs, isIdentifier, Bool.and_eq_true, List.all_eq_true] at h
      refine List.forall_mem_cons.2 ⟨?_, h.2⟩
      obtain ⟨hfirst, -⟩ := h
      simp only [beginsIdentifier, Bool.or_eq_true] at hfirst
      rcases hfirst with (hfirst | hfirst) | hfirst <;> simp [continuesIdentifier, hfirst]
  have hother (c : Char) (hc : continuesIdentifier c = false) : c ∉ s.toList := fun hmem =>
    Bool.false_ne_true (hc.symm.trans (hall c hmem))
  refine ⟨?_, ⟨?_, ?_⟩, ?_, ?_, fun hcomma => ?_⟩
  · rintro rfl
    cases h
  · exact hother ' ' (by decide +kernel)
  · exact hother '\n' (by decide +kernel)
  · exact hother '(' (by decide +kernel)
  · exact hother ')' (by decide +kernel)
  · exact hother ',' (by decide +kernel) (List.mem_of_getLast? hcomma)

/-! ## Variables -/

namespace Variable

/-- The words of a variable. -/
def words (v : Variable) : List String :=
  v.name :: (v.type.toList.flatMap fun type => [":", type]) ++ if v.isFinal then ["(final)"] else []

/-- The variable of some words. -/
def ofWords? : List String → Option Variable
  | [name] => some ⟨name, none, false⟩
  | [name, "(final)"] => some ⟨name, none, true⟩
  | [name, ":", type] => some ⟨name, some type, false⟩
  | [name, ":", type, "(final)"] => some ⟨name, some type, true⟩
  | _ => none

/-- Whether a variable can be read off a listing. -/
structure IsLegible (v : Variable) : Prop where
  name : IsListable v.name
  type : ∀ type ∈ v.type, IsListable type

instance (v : Variable) : Decidable v.IsLegible :=
  decidable_of_iff (IsListable v.name ∧ ∀ type ∈ v.type, IsListable type)
    ⟨fun h => ⟨h.1, h.2⟩, fun h => ⟨h.1, h.2⟩⟩

theorem text_eq_intercalate (v : Variable) : v.text = " ".intercalate v.words := by
  obtain ⟨name, type, isFinal⟩ := v
  rw [← String.toList_inj]
  cases type <;> cases isFinal <;> simp [text, words, typeSuffix, finalSuffix]

theorem words_ne_nil (v : Variable) : v.words ≠ [] := by simp [words]

@[simp] theorem ofWords?_words (v : Variable) : ofWords? v.words = some v := by
  obtain ⟨name, type, isFinal⟩ := v
  cases type <;> cases isFinal <;> rfl

theorem IsLegible.isWord {v : Variable} (h : v.IsLegible) : ∀ w ∈ v.words, IsWord w := by
  have hcolon : IsWord ":" := ⟨by decide, by decide, balanced_of_not_mem (by decide) (by decide)⟩
  have hletters : Balanced "final".toList := balanced_of_not_mem (by decide) (by decide)
  have hfinal : IsWord "(final)" := ⟨by decide, by decide, balanced_group hletters⟩
  obtain ⟨name, type, isFinal⟩ := v
  obtain ⟨hname, htype⟩ := h
  cases type <;> cases isFinal <;> simp_all [words, IsListable.isWord]

/-- The variable that a text says. -/
def ofText? (text : List Char) : Option Variable := ofWords? (Wording.words text)

variable {v : Variable}

theorem IsLegible.ofText?_text (h : v.IsLegible) : ofText? v.text.toList = some v := by
  rw [ofText?, v.text_eq_intercalate,
    words_intercalate v.words_ne_nil fun w hw => (h.isWord w hw).unbroken.noBlank, ofWords?_words]

theorem IsLegible.not_mem_text (h : v.IsLegible) : '\n' ∉ v.text.toList := by
  rw [v.text_eq_intercalate]
  exact not_mem_intercalate (by decide) fun w hw => (h.isWord w hw).unbroken.noBreak

theorem IsLegible.balanced_text (h : v.IsLegible) : Balanced v.text.toList := by
  rw [v.text_eq_intercalate]
  exact balanced_intercalate (balanced_of_not_mem (by decide) (by decide)) fun w hw =>
    (h.isWord w hw).balanced

/-- The text of the parameters of a method. -/
def listText (parameters : List Variable) : String := ", ".intercalate (parameters.map text)

/-- The parameters that a text says. -/
def ofListText? (text : List Char) : Option (List Variable) :=
  if text = [] then some [] else (items (Wording.words text)).mapM ofWords?

variable {parameters : List Variable}

theorem listText_eq_intercalate (parameters : List Variable) :
    listText parameters = " ".intercalate (listWords (parameters.map words)) := by
  rw [listText, intercalate_listWords (List.forall_mem_map.2 fun v _ => v.words_ne_nil),
    List.map_map]
  exact congrArg _ (List.map_congr_left fun v _ => v.text_eq_intercalate)

theorem isUnbroken_listWords (h : ∀ v ∈ parameters, v.IsLegible) :
    ∀ w ∈ listWords (parameters.map words), IsUnbroken w :=
  forall_listWords IsUnbroken.comma
    (List.forall_mem_map.2 fun v hv w hw => ((h v hv).isWord w hw).unbroken)

/-- No comma in a type is taken for one between parameters. -/
theorem items_listWords_words (h : ∀ v ∈ parameters, v.IsLegible) (hne : parameters ≠ []) :
    items (listWords (parameters.map words)) = parameters.map words :=
  items_listWords (mt List.map_eq_nil_iff.1 hne) (List.forall_mem_map.2 fun v hv =>
    ⟨v.words_ne_nil, fun w hw => ((h v hv).isWord w hw).noComma⟩)

/-- Parameters are read back. -/
theorem ofListText?_listText (h : ∀ v ∈ parameters, v.IsLegible) :
    ofListText? (listText parameters).toList = some parameters := by
  by_cases hne : parameters = []
  · rw [hne]
    rfl
  · have hwords : listWords (parameters.map words) ≠ [] :=
      listWords_ne_nil (mt List.map_eq_nil_iff.1 hne)
        (List.forall_mem_map.2 fun v _ => v.words_ne_nil)
    have hnotempty : (listText parameters).toList ≠ [] := by
      obtain ⟨first, more, rfl⟩ := List.exists_cons_of_ne_nil hne
      have hname := (h first List.mem_cons_self).name.nonempty
      simp [listText, text, hname, String.append_assoc]
    rw [ofListText?, if_neg hnotempty, listText_eq_intercalate,
      words_intercalate hwords fun w hw => (isUnbroken_listWords h w hw).noBlank,
      items_listWords_words h hne, mapM_map_eq_some fun v _ => v.ofWords?_words, List.map_id']

theorem balanced_listText (h : ∀ v ∈ parameters, v.IsLegible) :
    Balanced (listText parameters).toList :=
  balanced_intercalate (balanced_of_not_mem (by decide) (by decide))
    (List.forall_mem_map.2 fun v hv => (h v hv).balanced_text)

theorem not_mem_listText (h : ∀ v ∈ parameters, v.IsLegible) :
    '\n' ∉ (listText parameters).toList := by
  rw [listText_eq_intercalate]
  exact not_mem_intercalate (by decide) fun w hw => (isUnbroken_listWords h w hw).noBreak

end Variable

/-! ## Members -/

/-- The level of access that a sign stands for. -/
def Access.ofSymbol? : Char → Option Access
  | '+' => some .publicAccess
  | '-' => some .privateAccess
  | '#' => some .protectedAccess
  | '~' => some .packageAccess
  | _ => none

@[simp] theorem Access.ofSymbol?_symbol (access : Access) :
    ofSymbol? access.symbol = some access := by
  cases access <;> rfl

theorem Member.toList_text (f : Member) :
    f.text.toList = f.access.symbol :: ' ' :: f.toVariable.text.toList := by
  simp [text, heading, Variable.text]

namespace Method

/-- What stands behind the parameters of a method. -/
def suffix (m : Method) : String := typeSuffix m.type ++ finalSuffix m.isFinal

theorem toList_text (m : Method) :
    m.text.toList = m.access.symbol :: ' ' :: (m.name.toList ++ '(' ::
      ((Variable.listText m.parameters).toList ++ ')' :: m.suffix.toList)) := by
  simp [text, Member.heading, suffix, Variable.listText]

/-- The method that a text says behind its access level; local variables are not part
of it. -/
def ofText? (access : Access) (text : List Char) : Option Method := do
  let (inside, after) ← cutGroup 0 (text.dropWhile (· != '(')).tail
  let v ← Variable.ofText? (text.takeWhile (· != '(') ++ after)
  some ⟨⟨v, access, false⟩, ← Variable.ofListText? inside, []⟩

/-- Whether a method can be read off a listing. -/
structure IsLegible (m : Method) : Prop where
  self : m.toVariable.IsLegible
  parameters : ∀ v ∈ m.parameters, v.IsLegible
  locals : ∀ v ∈ m.locals, v.IsLegible

instance (m : Method) : Decidable m.IsLegible :=
  decidable_of_iff (m.toVariable.IsLegible ∧ (∀ v ∈ m.parameters, v.IsLegible) ∧
    ∀ v ∈ m.locals, v.IsLegible) ⟨fun h => ⟨h.1, h.2.1, h.2.2⟩, fun h => ⟨h.1, h.2, h.3⟩⟩

/-- A method as far as its own line shows it. -/
def inLine (m : Method) : Method := { m with isStatic := false, locals := [] }

variable {m : Method}

theorem IsLegible.ofText?_text (h : m.IsLegible) :
    ofText? m.access (m.name.toList ++ '(' ::
      ((Variable.listText m.parameters).toList ++ ')' :: m.suffix.toList)) = some m.inLine := by
  have hname : ∀ c ∈ m.name.toList, (c != '(') = true := fun c hc => by
    simpa using fun hopen : c = '(' => h.self.name.noOpening (hopen ▸ hc)
  have hself : m.name.toList ++ m.suffix.toList = m.toVariable.text.toList := by
    simp [suffix, Variable.text]
  rw [ofText?, List.dropWhile_append_of_pos hname, List.takeWhile_append_of_pos hname]
  simp [cutGroup_append (Variable.balanced_listText h.parameters), hself, h.self.ofText?_text,
    Variable.ofListText?_listText h.parameters, inLine]

end Method

/-! ## Lines -/

/-- What a line below the header of a record says. -/
inductive ListingLine where
  | field (f : Member)
  | method (m : Method)
  | localVariable (v : Variable)

namespace ListingLine

/-- The text of a line. -/
def text : ListingLine → String
  | .field f => " " ++ f.text
  | .method m => " " ++ m.text
  | .localVariable v => "   * " ++ v.text

/-- What a text says, which is a method if there is a parenthesis in its first word
behind the access level. -/
def ofText? : List Char → Option ListingLine
  | ' ' :: ' ' :: ' ' :: '*' :: ' ' :: rest => (Variable.ofText? rest).map .localVariable
  | ' ' :: symbol :: ' ' :: rest => do
    let access ← Access.ofSymbol? symbol
    if '(' ∈ rest.takeWhile (· != ' ') then (Method.ofText? access rest).map .method
    else (Variable.ofText? rest).map fun v => .field ⟨v, access, false⟩
  | _ => none

/-- What a line shows. -/
def shown : ListingLine → ListingLine
  | .field f => .field { f with isStatic := false }
  | .method m => .method m.inLine
  | .localVariable v => .localVariable v

/-- Whether a line can be read. -/
def IsLegible : ListingLine → Prop
  | .field f => f.toVariable.IsLegible
  | .method m => m.IsLegible
  | .localVariable v => v.IsLegible

variable {line : ListingLine}

theorem ofText?_symbol (access : Access) (rest : List Char) :
    ofText? (' ' :: access.symbol :: ' ' :: rest) =
      if '(' ∈ rest.takeWhile (· != ' ') then (Method.ofText? access rest).map .method
      else (Variable.ofText? rest).map fun v => .field ⟨v, access, false⟩ := by
  cases access <;> rfl

/-- Lines are read back. -/
theorem IsLegible.ofText?_text (h : line.IsLegible) :
    ofText? line.text.toList = some line.shown := by
  cases line with
  | field f =>
    have hname : '(' ∉ f.toVariable.text.toList.takeWhile (· != ' ') := by
      rw [Variable.text_eq_intercalate, Variable.words, List.cons_append,
        takeWhile_intercalate h.name.unbroken.noBlank]
      exact h.name.noOpening
    have htext : (ListingLine.field f).text.toList =
        ' ' :: f.access.symbol :: ' ' :: f.toVariable.text.toList := by
      simp [text, f.toList_text]
    rw [htext, ofText?_symbol, if_neg hname, Variable.IsLegible.ofText?_text h]
    rfl
  | method m =>
    have hname : ∀ c ∈ m.name.toList, (c != ' ') = true := fun c hc => by
      simpa using fun hblank : c = ' ' => h.self.name.unbroken.noBlank (hblank ▸ hc)
    have htext : (ListingLine.method m).text.toList = ' ' :: m.text.toList := by simp [text]
    rw [htext, m.toList_text, ofText?_symbol, List.takeWhile_append_of_pos hname,
      if_pos (by simp), h.ofText?_text]
    rfl
  | localVariable v =>
    have htext : (ListingLine.localVariable v).text.toList =
        ' ' :: ' ' :: ' ' :: '*' :: ' ' :: v.text.toList := by simp [text]
    rw [htext, ofText?, Variable.IsLegible.ofText?_text h]
    rfl

theorem IsLegible.not_mem_text (h : line.IsLegible) : '\n' ∉ line.text.toList := by
  cases line with
  | field f =>
    have hself := Variable.IsLegible.not_mem_text h
    cases hsymbol : f.access <;> simpa [text, f.toList_text, hsymbol, Access.symbol] using hself
  | method m =>
    have hself := h.self.not_mem_text
    have hlist := Variable.not_mem_listText h.parameters
    simp only [Variable.text, String.toList_append, List.mem_append, not_or] at hself
    cases hsymbol : m.access <;>
      simp [text, m.toList_text, Method.suffix, hsymbol, Access.symbol, hself, hlist]
  | localVariable v => simpa [text] using Variable.IsLegible.not_mem_text h

end ListingLine

end JavaOutline
