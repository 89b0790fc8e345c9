/-!
# JavaOutline.Proofs.Wording

Reading texts made of words.

* Words stand between blanks, so words without blanks are read back
  (`Wording.words_intercalate`).
* In a list of items every item but the last has a comma behind it.  Only a comma that
  ends a word separates items, so commas within words do no harm
  (`Wording.items_listWords`, `Wording.itemsBefore_append`).
* A group in parentheses ends where as many are closed as were opened
  (`Wording.cutGroup_append`).
-/

namespace JavaOutline.Wording

/-! ## Words -/

/-- The words of a text. -/
def words (text : List Char) : List String := (text.splitOn ' ').map String.ofList

theorem words_intercalate {ws : List String} (hne : ws ≠ []) (h : ∀ w ∈ ws, ' ' ∉ w.toList) :
    words (" ".intercalate ws).toList = ws := by
  have hblank : " ".toList = [' '] := rfl
  have hsplit := List.splitOn_intercalate ' ' (List.forall_mem_map.2 h)
    (mt List.map_eq_nil_iff.1 hne)
  rw [words, String.toList_intercalate, hblank, hsplit, List.map_map]
  simp [Function.comp_def]

/-- A first word and others, each with a blank before it. -/
theorem intercalate_cons (w : String) (ws : List String) :
    " ".intercalate (w :: ws) = w ++ String.join (ws.map (" " ++ ·)) := by
  induction ws generalizing w with
  | nil => simp
  | cons next ws ih =>
    rw [String.intercalate_cons_cons, ih, List.map_cons, String.join_cons, String.append_assoc,
      String.append_assoc]

/-- A character of words with blanks in between is a blank or stands in a word. -/
theorem not_mem_intercalate {c : Char} {ws : List String} (hc : c ≠ ' ')
    (h : ∀ w ∈ ws, c ∉ w.toList) : c ∉ (" ".intercalate ws).toList := by
  cases ws with
  | nil => simp
  | cons w ws =>
    rw [intercalate_cons]
    simpa [hc] using h

/-- The first word reaches to the first blank. -/
theorem takeWhile_intercalate {w : String} (h : ' ' ∉ w.toList) (ws : List String) :
    (" ".intercalate (w :: ws)).toList.takeWhile (· != ' ') = w.toList := by
  have hword : ∀ c ∈ w.toList, (c != ' ') = true := fun c hc => by
    simpa using fun hblank : c = ' ' => h (hblank ▸ hc)
  rw [intercalate_cons, String.toList_append, List.takeWhile_append_of_pos hword]
  cases ws <;> simp

/-- Lines that hold no line break are read back. -/
theorem splitOn_lines {lines : List String} (h : ∀ line ∈ lines, '\n' ∉ line.toList) :
    (String.join (lines.map (· ++ "\n"))).toList.splitOn '\n' =
      lines.map String.toList ++ [[]] := by
  induction lines with
  | nil => rfl
  | cons line lines ih =>
    obtain ⟨hline, hlines⟩ := List.forall_mem_cons.1 h
    have htext : (String.join ((line :: lines).map (· ++ "\n"))).toList =
        line.toList ++ '\n' :: (String.join (lines.map (· ++ "\n"))).toList := by simp
    rw [htext, List.splitOn_append_cons_self_of_not_mem hline, ih hlines, List.map_cons,
      List.cons_append]

/-! ## Lists of items -/

/-- Words with a comma behind the last of them. -/
def withComma : List String → List String
  | [] => []
  | [w] => [w ++ ","]
  | w :: more => w :: withComma more

/-- The words of a list of items. -/
def listWords : List (List String) → List String
  | [] => []
  | [item] => item
  | item :: more => withComma item ++ listWords more

/-- A word without the comma that ends it. -/
def beforeComma? (w : String) : Option String :=
  if w.toList.getLast? = some ',' then some (String.ofList w.toList.dropLast) else none

/-- The items of a list, each with its words. -/
def items : List String → List (List String)
  | [] => [[]]
  | w :: rest =>
    match beforeComma? w with
    | some front => [front] :: items rest
    | none =>
      match items rest with
      | [] => [[w]]
      | item :: more => (w :: item) :: more

/-- The items of a list in front of other words, if each item is one word. -/
def itemsBefore : List String → List String × List String
  | [] => ([], [])
  | w :: rest =>
    match beforeComma? w with
    | some front => (front :: (itemsBefore rest).1, (itemsBefore rest).2)
    | none => ([w], rest)

variable {w : String} {item ws rest : List String} {list : List (List String)}

@[simp] theorem beforeComma?_comma (w : String) : beforeComma? (w ++ ",") = some w := by
  simp [beforeComma?]

/-- A comma ends an item. -/
theorem items_withComma (hne : item ≠ []) (h : ∀ w ∈ item, beforeComma? w = none)
    (rest : List String) : items (withComma item ++ rest) = item :: items rest := by
  induction item with
  | nil => exact absurd rfl hne
  | cons w item ih =>
    obtain ⟨hw, hitem⟩ := List.forall_mem_cons.1 h
    cases item with
    | nil => simp [withComma, items]
    | cons next item => rw [withComma, List.cons_append, items, hw, ih (by simp) hitem]; simp

/-- Words without commas are one item. -/
theorem items_of_forall (hne : item ≠ []) (h : ∀ w ∈ item, beforeComma? w = none) :
    items item = [item] := by
  induction item with
  | nil => exact absurd rfl hne
  | cons w item ih =>
    obtain ⟨hw, hitem⟩ := List.forall_mem_cons.1 h
    cases item with
    | nil => simp [items, hw]
    | cons next item => rw [items, hw, ih (by simp) hitem]

/-- The items of a list are read back. -/
theorem items_listWords (hne : list ≠ [])
    (h : ∀ item ∈ list, item ≠ [] ∧ ∀ w ∈ item, beforeComma? w = none) :
    items (listWords list) = list := by
  induction list with
  | nil => exact absurd rfl hne
  | cons item list ih =>
    obtain ⟨⟨hitem, hwords⟩, hlist⟩ := List.forall_mem_cons.1 h
    cases list with
    | nil => exact items_of_forall hitem hwords
    | cons next list => rw [listWords, items_withComma hitem hwords, ih (by simp) hlist]; simp

/-- The items of a list are read back, whatever follows. -/
theorem itemsBefore_append (hne : ws ≠ []) (h : ∀ w ∈ ws, beforeComma? w = none)
    (rest : List String) : itemsBefore (listWords (ws.map ([·])) ++ rest) = (ws, rest) := by
  induction ws with
  | nil => exact absurd rfl hne
  | cons w ws ih =>
    obtain ⟨hw, hws⟩ := List.forall_mem_cons.1 h
    cases ws with
    | nil => simp [listWords, itemsBefore, hw]
    | cons next ws =>
      have hrest := ih (by simp) hws
      rw [List.map_cons] at hrest
      simp [listWords, withComma, itemsBefore, hrest]

theorem withComma_ne_nil (hne : item ≠ []) : withComma item ≠ [] := by
  match item with
  | [_] => simp [withComma]
  | _ :: _ :: _ => simp [withComma]

theorem listWords_ne_nil (hne : list ≠ []) (h : ∀ item ∈ list, item ≠ []) :
    listWords list ≠ [] := by
  match list with
  | [item] => exact h item (by simp)
  | item :: _ :: _ => simp [listWords, withComma_ne_nil (h item (by simp))]

theorem forall_withComma {P : String → Prop} (hcomma : ∀ w, P w → P (w ++ ","))
    (h : ∀ w ∈ item, P w) : ∀ w ∈ withComma item, P w := by
  induction item with
  | nil => simp [withComma]
  | cons w item ih =>
    obtain ⟨hw, hitem⟩ := List.forall_mem_cons.1 h
    cases item with
    | nil => simpa [withComma] using hcomma w hw
    | cons next item => exact List.forall_mem_cons.2 ⟨hw, ih hitem⟩

/-- What holds of the words of the items and is kept by commas holds of the words of
the list. -/
theorem forall_listWords {P : String → Prop} (hcomma : ∀ w, P w → P (w ++ ","))
    (h : ∀ item ∈ list, ∀ w ∈ item, P w) : ∀ w ∈ listWords list, P w := by
  induction list with
  | nil => simp [listWords]
  | cons item list ih =>
    obtain ⟨hitem, hlist⟩ := List.forall_mem_cons.1 h
    cases list with
    | nil => exact hitem
    | cons next list =>
      exact List.forall_mem_append.2 ⟨forall_withComma hcomma hitem, ih hlist⟩

theorem intercalate_withComma (hne : item ≠ []) :
    " ".intercalate (withComma item) = " ".intercalate item ++ "," := by
  induction item with
  | nil => exact absurd rfl hne
  | cons w item ih =>
    cases item with
    | nil => simp [withComma]
    | cons next item =>
      rw [withComma, String.intercalate_cons_of_ne_nil (withComma_ne_nil (by simp)), ih (by simp),
        String.intercalate_cons_cons, String.append_assoc, String.append_assoc,
        String.append_assoc]
      simp

/-- A list is written with a comma and a blank between its items. -/
theorem intercalate_listWords (h : ∀ item ∈ list, item ≠ []) :
    " ".intercalate (listWords list) = ", ".intercalate (list.map (" ".intercalate ·)) := by
  induction list with
  | nil => simp [listWords]
  | cons item list ih =>
    obtain ⟨hitem, hlist⟩ := List.forall_mem_cons.1 h
    cases list with
    | nil => simp [listWords]
    | cons next list =>
      have hseparator : ", " = "," ++ " " := by decide
      rw [listWords, String.intercalate_append_of_ne_nil (withComma_ne_nil hitem)
        (listWords_ne_nil (by simp) hlist), intercalate_withComma hitem, ih hlist, List.map_cons,
        List.map_cons, List.map_cons, String.intercalate_cons_cons, hseparator]
      · simp only [String.append_assoc]
      · simp

/-! ## Groups -/

/-- How many groups are open behind a character. -/
def depthAfter (depth : Nat) (c : Char) : Nat :=
  if c = '(' then depth + 1 else if c = ')' then depth - 1 else depth

/-- Put a text in front of a text that has been cut. -/
def putBefore (text : List Char) (cut : List Char × List Char) : List Char × List Char :=
  (text ++ cut.1, cut.2)

/-- The text up to the parenthesis that ends a group, in which `depth` others are open,
and the text behind it. -/
def cutGroup (depth : Nat) : List Char → Option (List Char × List Char)
  | [] => none
  | c :: rest =>
    if c = ')' ∧ depth = 0 then some ([], rest)
    else (cutGroup (depthAfter depth c) rest).map (putBefore [c])

/-- Whether a group goes on over a text: in it as many parentheses are closed as are
opened. -/
def Balanced (text : List Char) : Prop :=
  ∀ depth rest, cutGroup depth (text ++ rest) = (cutGroup depth rest).map (putBefore text)

variable {text more : List Char}

theorem putBefore_comp (text more : List Char) :
    putBefore text ∘ putBefore more = putBefore (text ++ more) :=
  funext fun cut => by simp [putBefore]

/-- A balanced text is a group. -/
theorem cutGroup_append (h : Balanced text) (rest : List Char) :
    cutGroup 0 (text ++ ')' :: rest) = some (text, rest) := by
  rw [h]
  simp [cutGroup, putBefore]

theorem balanced_nil : Balanced [] := fun depth rest => by
  have hid : putBefore [] = id := rfl
  rw [hid, Option.map_id, List.nil_append, id]

theorem Balanced.append (h : Balanced text) (hmore : Balanced more) : Balanced (text ++ more) :=
  fun depth rest => by
    rw [List.append_assoc, h, hmore, Option.map_map, putBefore_comp]

/-- Without parentheses a text is balanced. -/
theorem balanced_of_not_mem (hopen : '(' ∉ text) (hclose : ')' ∉ text) : Balanced text := by
  induction text with
  | nil => exact balanced_nil
  | cons c text ih =>
    rw [List.mem_cons, not_or] at hopen hclose
    intro depth rest
    rw [List.cons_append, cutGroup, if_neg fun h => hclose.1 h.1.symm, depthAfter,
      if_neg (Ne.symm hopen.1), if_neg (Ne.symm hclose.1), ih hopen.2 hclose.2, Option.map_map,
      putBefore_comp, List.singleton_append]

/-- A group in parentheses is balanced. -/
theorem balanced_group (h : Balanced text) : Balanced ('(' :: text ++ [')']) :=
  fun depth rest => by
    have hopen : depthAfter depth '(' = depth + 1 := rfl
    have hclose : depthAfter (depth + 1) ')' = depth := rfl
    rw [List.cons_append, List.cons_append, List.append_assoc, List.singleton_append, cutGroup,
      if_neg (by simp), hopen, h, cutGroup, if_neg (by simp), hclose, Option.map_map,
      Option.map_map, putBefore_comp, putBefore_comp]
    rfl

theorem balanced_intercalate {separator : String} {texts : List String}
    (hseparator : Balanced separator.toList) (h : ∀ text ∈ texts, Balanced text.toList) :
    Balanced (separator.intercalate texts).toList := by
  induction texts with
  | nil => exact balanced_nil
  | cons text texts ih =>
    obtain ⟨htext, htexts⟩ := List.forall_mem_cons.1 h
    cases texts with
    | nil => simpa using htext
    | cons next texts =>
      rw [String.intercalate_cons_cons, String.toList_append, String.toList_append]
      exact (htext.append hseparator).append (ih htexts)

end JavaOutline.Wording
