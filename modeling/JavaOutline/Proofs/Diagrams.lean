import JavaOutline.Export.Diagram
import JavaOutline.Proofs.GraphText
import JavaOutline.Proofs.Relations

/-!
# JavaOutline.Proofs.Diagrams

The class diagram of a registry is read back as a graph.

* A text in a label is escaped character by character, which is the same as escaping
  the special characters one after the other, the backslash first
  (`Diagram.toList_escape_eq_inTurn`).  No quote of it ends a quoted text
  (`Diagram.sealed_escape`), none of its escapes ends a line of a label
  (`Diagram.labelLines_escape`), and the escapes can be undone
  (`Diagram.unescape_escape`).  So kind, name and members are read off a label
  (`Diagram.readLabel?_label`), whatever characters they hold.
* The lines of nodes and edges are made of known tokens, one statement each.
* The ends of a relation are registered, so every relation has its edge
  (`Registry.Valid.filterMap_relationLine?`).

`Registry.Built.diagram_reads` puts this together.
-/

namespace JavaOutline

open GraphText

namespace Diagram

/-! ## Escapes -/

/-- What a backslash and a character stand for. -/
def escapedBy (c : Char) : Char := if c = 'n' then '\n' else c

/-- The special characters are escaped by a backslash and a character that does not end
a line of a label; the others stand for themselves. -/
theorem escapeChar_cases (c : Char) :
    (∃ d, d ≠ 'l' ∧ escapedBy d = c ∧ escapeChar c = ['\\', d]) ∨
      (c ≠ '\\' ∧ c ≠ '"' ∧ escapeChar c = [c]) := by
  by_cases hspecial : c = '\\' ∨ c = '"' ∨ c = '<' ∨ c = '>'
  · refine .inl ⟨c, ?_, ?_, if_pos hspecial⟩ <;> rcases hspecial with rfl | rfl | rfl | rfl <;>
      decide
  · by_cases hbreak : c = '\n'
    · exact .inl ⟨'n', by decide, hbreak.symm, by rw [escapeChar, if_neg hspecial, if_pos hbreak]⟩
    · rw [escapeChar, if_neg hspecial, if_neg hbreak]
      exact .inr ⟨fun h => hspecial (.inl h), fun h => hspecial (.inr (.inl h)), rfl⟩

theorem toList_escape (s : String) : (escape s).toList = s.toList.flatMap escapeChar := by
  rw [escape, String.toList_ofList]

/-- A text in which one character is replaced everywhere. -/
def replaceChar (c : Char) (written text : List Char) : List Char :=
  text.flatMap fun d => if d = c then written else [d]

/-- Escaping the special characters one after the other, the backslash first, comes to
the same. -/
theorem toList_escape_eq_inTurn (s : String) :
    (escape s).toList =
      replaceChar '\n' ['\\', 'n'] (replaceChar '>' ['\\', '>'] (replaceChar '<' ['\\', '<']
        (replaceChar '"' ['\\', '"'] (replaceChar '\\' ['\\', '\\'] s.toList)))) := by
  rw [toList_escape]
  simp only [replaceChar, List.flatMap_assoc]
  refine List.flatMap_congr fun c _ => ?_
  by_cases hspecial : c = '\\' ∨ c = '"' ∨ c = '<' ∨ c = '>' ∨ c = '\n'
  · rcases hspecial with rfl | rfl | rfl | rfl | rfl <;> rfl
  · simp only [not_or] at hspecial
    simp [escapeChar, hspecial]

/-- What a text with escapes stands for. -/
def unescape : List Char → List Char
  | '\\' :: c :: rest => escapedBy c :: unescape rest
  | c :: rest => c :: unescape rest
  | [] => []

theorem unescape_escapeChar (c : Char) (rest : List Char) :
    unescape (escapeChar c ++ rest) = c :: unescape rest := by
  rcases escapeChar_cases c with ⟨d, -, hd, h⟩ | ⟨hslash, -, h⟩ <;> rw [h]
  · rw [← hd]
    rfl
  · rw [List.singleton_append, unescape]
    rintro d tail rfl
    exact absurd rfl hslash

/-- Undoing the escapes gives the text back. -/
theorem unescape_escape (s : String) : unescape (escape s).toList = s.toList := by
  rw [toList_escape]
  induction s.toList with
  | nil => rfl
  | cons c chars ih => rw [List.flatMap_cons, unescape_escapeChar, ih]

/-! ## Labels -/

/-- Whether a text can stand in quotes: a quoted text goes on over it. -/
def Sealed (text : List Char) : Prop :=
  ∀ chars, run (.inQuotes chars) text = ([], .inQuotes (chars ++ text))

theorem Sealed.append {text more : List Char} (h : Sealed text) (hmore : Sealed more) :
    Sealed (text ++ more) := fun chars => by
  rw [run_append_of_eq (h chars) (hmore _)]
  simp

theorem sealed_nil : Sealed [] := fun chars => by simp [run]

theorem sealed_flatMap {α : Type} {f : α → List Char} {items : List α}
    (h : ∀ a ∈ items, Sealed (f a)) : Sealed (items.flatMap f) := by
  induction items with
  | nil => exact sealed_nil
  | cons a items ih =>
    obtain ⟨ha, hitems⟩ := List.forall_mem_cons.1 h
    exact ha.append (ih hitems)

/-- Without quotes and backslashes a text can stand in quotes. -/
theorem sealed_of_not_mem {text : List Char} (hslash : '\\' ∉ text) (hquote : '"' ∉ text) :
    Sealed text := fun chars => by
  induction text generalizing chars with
  | nil => simp [run]
  | cons c text ih =>
    rw [List.mem_cons, not_or] at hslash hquote
    simp [run, step, Ne.symm hslash.1, Ne.symm hquote.1, ih hslash.2 hquote.2 (chars ++ [c])]

theorem sealed_escapeChar (c : Char) : Sealed (escapeChar c) := fun chars => by
  rcases escapeChar_cases c with ⟨d, -, -, h⟩ | ⟨hslash, hquote, h⟩ <;> rw [h]
  · rfl
  · simp [run, step, hslash, hquote]

/-- No quote of an escaped text ends a quoted text. -/
theorem sealed_escape (s : String) : Sealed (escape s).toList := by
  rw [toList_escape]
  exact sealed_flatMap fun c _ => sealed_escapeChar c

/-- What stands in front of the name in a label. -/
def kindText (kind : TypeKind) : List Char := '«' :: kind.keyword.toList ++ ['»', '\\', 'n']

theorem sealed_kindText (kind : TypeKind) : Sealed (kindText kind) := fun chars => by
  cases kind <;> simp [kindText, TypeKind.keyword, run, step]

/-- The characters of a label. -/
theorem toList_label (style : DiagramStyle) (t : TypeRecord) :
    (label style t).toList = kindText t.kind ++ (escape t.fullName).toList ++
      if style.withMembers then
        (memberTexts t).flatMap (fun text => '\\' :: 'l' :: (escape text).toList) ++ ['\\', 'l']
      else [] := by
  rw [label]
  split <;> simp [kindText, List.flatMap_map]

theorem sealed_label (style : DiagramStyle) (t : TypeRecord) :
    Sealed (label style t).toList := by
  have hline : Sealed ['\\', 'l'] := fun _ => rfl
  rw [toList_label]
  refine ((sealed_kindText t.kind).append (sealed_escape t.fullName)).append ?_
  split
  · exact (sealed_flatMap fun text _ => hline.append (sealed_escape text)).append hline
  · exact sealed_nil

/-! ## Reading labels -/

/-- Put a text in front of the first of some lines. -/
def putFront (front : List Char) : List (List Char) → List (List Char)
  | [] => [front]
  | line :: more => (front ++ line) :: more

/-- The lines of a label.  A backslash and an `l` end a line, and a last line that is
not ended counts if it is not empty. -/
def labelLines : List Char → List (List Char)
  | '\\' :: c :: rest =>
    if c = 'l' then [] :: labelLines rest else putFront ['\\', c] (labelLines rest)
  | c :: rest => putFront [c] (labelLines rest)
  | [] => []

/-- The kind and the name in the first line of a label. -/
def readHeading? : List Char → Option (String × String)
  | '«' :: rest =>
    match rest.dropWhile (· != '»') with
    | '»' :: '\\' :: 'n' :: name =>
      some (String.ofList (rest.takeWhile (· != '»')), String.ofList (unescape name))
    | _ => none
  | _ => none

/-- The kind, the name and the members in a label. -/
def readLabel? (label : String) : Option (String × String × List String) :=
  match labelLines label.toList with
  | [] => none
  | heading :: members =>
    (readHeading? heading).map fun (kind, name) =>
      (kind, name, members.map fun line => String.ofList (unescape line))

theorem putFront_putFront (a b : List Char) (lines : List (List Char)) :
    putFront a (putFront b lines) = putFront (a ++ b) lines := by
  cases lines <;> simp [putFront]

theorem labelLines_cons {c : Char} (h : c ≠ '\\') (rest : List Char) :
    labelLines (c :: rest) = putFront [c] (labelLines rest) := by
  rw [labelLines]
  rintro d tail rfl
  exact absurd rfl h

theorem labelLines_escapeChar (c : Char) (rest : List Char) :
    labelLines (escapeChar c ++ rest) = putFront (escapeChar c) (labelLines rest) := by
  rcases escapeChar_cases c with ⟨d, hd, -, h⟩ | ⟨hslash, -, h⟩ <;> rw [h]
  · simp [labelLines, hd]
  · exact labelLines_cons hslash rest

/-- An escaped text goes to the line that it stands in. -/
theorem putFront_labelLines_escape (front : List Char) (s : String) (rest : List Char) :
    putFront front (labelLines ((escape s).toList ++ rest)) =
      putFront (front ++ (escape s).toList) (labelLines rest) := by
  rw [toList_escape]
  induction s.toList generalizing front with
  | nil => simp
  | cons c chars ih =>
    rw [List.flatMap_cons, List.append_assoc, labelLines_escapeChar, putFront_putFront, ih,
      List.append_assoc]

/-- An escaped text in front of lines stands in the first of them. -/
theorem labelLines_escape (s : String) {rest line : List Char} {more : List (List Char)}
    (h : labelLines rest = line :: more) :
    labelLines ((escape s).toList ++ rest) = ((escape s).toList ++ line) :: more := by
  rw [toList_escape]
  induction s.toList with
  | nil => simpa using h
  | cons c chars ih =>
    rw [List.flatMap_cons, List.append_assoc, labelLines_escapeChar, ih, putFront,
      List.append_assoc]

/-- Members stand in lines of their own. -/
theorem labelLines_members (members : List String) :
    labelLines (members.flatMap (fun text => '\\' :: 'l' :: (escape text).toList) ++
      ['\\', 'l']) = [] :: members.map fun text => (escape text).toList := by
  induction members with
  | nil => rfl
  | cons text members ih =>
    have htext := labelLines_escape text ih
    rw [List.append_nil] at htext
    rw [List.flatMap_cons, List.cons_append, List.cons_append, List.cons_append,
      List.cons_append, List.append_assoc, labelLines, if_pos rfl, htext, List.map_cons]

theorem labelLines_kindText (kind : TypeKind) (rest : List Char) :
    labelLines (kindText kind ++ rest) = putFront (kindText kind) (labelLines rest) := by
  cases kind <;>
    simp [kindText, TypeKind.keyword, labelLines, putFront_putFront]

theorem readHeading?_append (kind : TypeKind) (name : String) :
    readHeading? (kindText kind ++ (escape name).toList) = some (kind.keyword, name) := by
  cases kind <;>
    simp [kindText, TypeKind.keyword, readHeading?, unescape_escape]

/-- Kind, name and members are read off a label. -/
theorem readLabel?_label (style : DiagramStyle) (t : TypeRecord) :
    readLabel? (label style t) =
      some (t.kind.keyword, t.fullName, if style.withMembers then memberTexts t else []) := by
  have hlines : labelLines (label style t).toList =
      (kindText t.kind ++ (escape t.fullName).toList) ::
        (if style.withMembers then memberTexts t else []).map fun text => (escape text).toList := by
    rw [toList_label, List.append_assoc, labelLines_kindText, putFront_labelLines_escape]
    split
    · rw [labelLines_members, putFront, List.append_nil]
    · rfl
  rw [readLabel?, hlines]
  simp [readHeading?_append, unescape_escape, Function.comp_def]

/-! ## Nodes -/

variable {style : DiagramStyle} {t : TypeRecord} {i j : Nat}

theorem toList_nodeName (i : Nat) : (nodeName i).toList = 'n' :: Nat.toDigits 10 i := by
  simp [nodeName]

/-- Different positions have different nodes. -/
theorem nodeName_injective (h : nodeName i = nodeName j) : i = j := by
  have hdigits := congrArg String.toList h
  rw [toList_nodeName, toList_nodeName, List.cons.injEq] at hdigits
  rw [← Nat.ofDigitChars_ten_toDigits (n := i), hdigits.2, Nat.ofDigitChars_ten_toDigits]

/-- The name of a node is one word. -/
theorem run_nodeName (i : Nat) :
    run .between (nodeName i).toList = ([], .inWord (nodeName i).toList) := by
  have hdigits : ∀ c ∈ Nat.toDigits 10 i, isWordChar c = true := fun c hc => by
    have hdigit := Nat.isDigit_of_mem_toDigits (by decide) (by decide) hc
    simp [isWordChar, Char.isAlphanum, hdigit]
  have hword := run_word ['n'] hdigits
  have hstart : run .between ['n'] = ([], .inWord ['n']) := rfl
  rw [toList_nodeName]
  exact run_append_of_eq hstart hword

/-- No node has the name of the keyword for all nodes. -/
theorem nodeName_ne_node (i : Nat) : nodeName i ≠ "node" := fun h => by
  have hkeyword : "node".toList = ['n', 'o', 'd', 'e'] := rfl
  have hdigits := congrArg String.toList h
  rw [toList_nodeName, hkeyword] at hdigits
  have hmem : 'o' ∈ Nat.toDigits 10 i := by simp [(List.cons.inj hdigits).2]
  exact absurd (Nat.isDigit_of_mem_toDigits (by decide) (by decide) hmem) (by decide)

/-- The colour that a style gives to nodes of a kind. -/
def fillColor (style : DiagramStyle) (kind : TypeKind) : String :=
  (style.fillColors.lookup kind).getD "#FFFFFF"

/-- The tokens of a node but for the semicolon. -/
def nodeTokens (style : DiagramStyle) (t : TypeRecord) (i : Nat) : List Token :=
  [.word (nodeName i).toList, .mark '[', .word "label".toList, .mark '=',
    .quoted (label style t).toList, .mark ',', .word "fillcolor".toList, .mark '=',
    .quoted (fillColor style t.kind).toList, .mark ']']

theorem spells_nodeLine (hcolor : Sealed (fillColor style t.kind).toList) (i : Nat) :
    Spells (nodeLine style t i) (nodeTokens style t i ++ [.mark ';']) := by
  have hblanks : run .between "    ".toList = ([], .between) := rfl
  have hlabel : ∀ name, run (.inWord name) " [label=\"".toList =
      ([.word name, .mark '[', .word "label".toList, .mark '='], .inQuotes []) := fun _ => rfl
  have hfill : ∀ text, run (.inQuotes text) "\", fillcolor=\"".toList =
      ([.quoted text, .mark ',', .word "fillcolor".toList, .mark '='], .inQuotes []) :=
    fun _ => rfl
  have hend : ∀ text, run (.inQuotes text) "\"];\n".toList =
      ([.quoted text, .mark ']', .mark ';'], .between) := fun _ => rfl
  have hline := run_append_of_eq (run_append_of_eq (run_append_of_eq (run_append_of_eq
    (run_append_of_eq (run_append_of_eq hblanks (run_nodeName i)) (hlabel _))
    (sealed_label style t [])) (hfill _)) (hcolor [])) (hend _)
  simpa [Spells, nodeLine, nodeTokens, fillColor] using hline

theorem statement?_nodeTokens (style : DiagramStyle) (t : TypeRecord) (i : Nat) :
    .mark ';' ∉ nodeTokens style t i ∧ statement? (nodeTokens style t i) =
      some (.node (nodeName i)
        [("label", label style t), ("fillcolor", fillColor style t.kind)]) := by
  simp [nodeTokens, statement?, attributes?, Token.text?, nodeName_ne_node]

/-! ## Edges -/

/-- The attributes of an arrow in the usual style. -/
def arrow : Relation.Kind → List (String × String)
  | .generalization => [("arrowhead", "empty")]
  | .realization => [("arrowhead", "empty"), ("style", "dashed")]
  | .association => [("arrowhead", "vee")]
  | .dependency => [("arrowhead", "vee"), ("style", "dashed")]

/-- The tokens behind the name of the node to which an edge leads, but for the
semicolon. -/
def arrowTokens (kind : Relation.Kind) : List Token :=
  [.mark '[', .word "label".toList, .mark '=', .quoted kind.name.toList] ++
    (arrow kind).flatMap (fun a =>
      [.mark ',', .word a.1.toList, .mark '=', .word a.2.toList]) ++ [.mark ']']

/-- The tokens of an edge but for the semicolon. -/
def edgeTokens (kind : Relation.Kind) (i j : Nat) : List Token :=
  [.word (nodeName i).toList, .arrow, .word (nodeName j).toList] ++ arrowTokens kind

/-- What stands behind the names of two nodes in an edge of the usual style. -/
def arrowText (kind : Relation.Kind) : String :=
  "[label=\"" ++ kind.name ++ "\"" ++
    ((DiagramStyle.usual.arrowStyles.lookup kind).map (", " ++ ·)).getD "" ++ "];\n"

theorem run_arrowText (kind : Relation.Kind) :
    run .between (arrowText kind).toList = (arrowTokens kind ++ [.mark ';'], .between) := by
  cases kind <;> decide +kernel

theorem spells_edgeLine (kind : Relation.Kind) (i j : Nat) (withMembers : Bool) :
    Spells (edgeLine { DiagramStyle.usual with withMembers } kind i j)
      (edgeTokens kind i j ++ [.mark ';']) := by
  have hblanks : run .between "    ".toList = ([], .between) := rfl
  have harrow : ∀ name, run (.inWord name) " -> ".toList = ([.word name, .arrow], .between) :=
    fun _ => rfl
  have hblank : ∀ name, run (.inWord name) " ".toList = ([.word name], .between) := fun _ => rfl
  have hline := run_append_of_eq (run_append_of_eq (run_append_of_eq (run_append_of_eq
    (run_append_of_eq hblanks (run_nodeName i)) (harrow _)) (run_nodeName j)) (hblank _))
    (run_arrowText kind)
  have hbracket : " [label=\"" = " " ++ "[label=\"" := by decide
  have htext : edgeLine { DiagramStyle.usual with withMembers } kind i j =
      "    " ++ nodeName i ++ " -> " ++ nodeName j ++ " " ++ arrowText kind := by
    simp only [edgeLine, arrowText, hbracket, String.append_assoc]
  rw [Spells, htext]
  simpa [edgeTokens] using hline

theorem statement?_edgeTokens (kind : Relation.Kind) (i j : Nat) :
    .mark ';' ∉ edgeTokens kind i j ∧ statement? (edgeTokens kind i j) =
      some (.edge (nodeName i) (nodeName j) (("label", kind.name) :: arrow kind)) := by
  cases kind <;>
    simp [edgeTokens, arrowTokens, arrow, statement?, attributes?, Token.text?,
      Relation.Kind.name]

end Diagram

/-! ## Diagrams -/

namespace Registry

open Diagram

variable {r : Registry} {full : String}

/-- In a valid registry a registered name has the position of its record. -/
theorem Valid.position?_eq_idxOf (h : r.Valid) (hfull : full ∈ r.names) :
    r.position? full = some (r.names.idxOf full) := by
  have hfound : r.names[r.names.idxOf full]? = some full := by
    rw [List.getElem?_eq_getElem (List.idxOf_lt_length_of_mem hfull), List.getElem_idxOf]
  rw [names, List.getElem?_map, Option.map_eq_some_iff] at hfound
  obtain ⟨record, hrecord, hname⟩ := hfound
  rw [h full]
  exact ⟨record, Array.getElem?_toList ▸ hrecord, hname⟩

/-- The ends of every relation are registered. -/
theorem Valid.ends_mem_names (h : r.Valid) {x : Relation} (hx : x ∈ r.relations) :
    x.source ∈ r.names ∧ x.target ∈ r.names := by
  obtain ⟨s, hs, heq⟩ := r.relations_eq
  obtain ⟨t, ht, u, hrefers, hends⟩ := mem_mentions_iff.1 (hs.strongest x (heq ▸ hx)).1
  obtain ⟨hsource, htarget⟩ := Prod.mk.inj hends
  rw [hsource, htarget]
  exact ⟨List.mem_map_of_mem ht, List.mem_map_of_mem (hrefers.mem h)⟩

/-- Every relation has its edge. -/
theorem Valid.filterMap_relationLine? (h : r.Valid) (style : DiagramStyle) :
    r.relations.filterMap (relationLine? r style) = r.relations.map fun x =>
      edgeLine style x.kind (r.names.idxOf x.source) (r.names.idxOf x.target) := by
  rw [← List.filterMap_eq_map]
  refine List.filterMap_congr fun x hx => ?_
  obtain ⟨hsource, htarget⟩ := h.ends_mem_names hx
  simp [relationLine?, h.position?_eq_idxOf hsource, h.position?_eq_idxOf htarget]

/-- A diagram has a line for each record and one for each relation. -/
theorem Valid.diagram_eq (h : r.Valid) (style : DiagramStyle) :
    r.diagram style = "digraph class_view \x7b\n    rankdir=" ++ style.direction ++
      ";\n    node [shape=box, style=filled];\n\n" ++
      String.join (r.toList.zipIdx.map fun node => nodeLine style node.1 node.2) ++ "\n" ++
      String.join (r.relations.map fun x =>
        edgeLine style x.kind (r.names.idxOf x.source) (r.names.idxOf x.target)) ++ "\x7d\n" := by
  unfold diagram
  rw [h.filterMap_relationLine?, List.mapIdx_eq_zipIdx_map]

/-- The statements in front of the nodes, with their tokens. -/
def diagramHeading : List (List Token × GraphText.Statement) :=
  [([.word "rankdir".toList, .mark '=', .word "BT".toList], .setting "rankdir" "BT"),
    ([.word "node".toList, .mark '[', .word "shape".toList, .mark '=', .word "box".toList,
      .mark ',', .word "style".toList, .mark '=', .word "filled".toList, .mark ']'],
      .allNodes [("shape", "box"), ("style", "filled")])]

theorem spells_diagramHeading :
    Spells ("digraph class_view \x7b\n    rankdir=" ++ DiagramStyle.usual.direction ++
      ";\n    node [shape=box, style=filled];\n\n")
      ([.word "digraph".toList, .word "class_view".toList, .mark '\x7b'] ++
        diagramHeading.flatMap fun line => line.1 ++ [.mark ';']) := by
  rw [Spells]
  decide +kernel

/-- The usual colours can stand in quotes. -/
theorem sealed_fillColor (kind : TypeKind) (withMembers : Bool) :
    Sealed (fillColor { DiagramStyle.usual with withMembers } kind).toList := by
  have hcolor : fillColor { DiagramStyle.usual with withMembers } kind =
      fillColor DiagramStyle.usual kind := rfl
  rw [hcolor]
  cases kind <;> exact sealed_of_not_mem (by decide) (by decide)

/-- The tokens of a diagram. -/
theorem Valid.spells_diagram (h : r.Valid) (withMembers : Bool) :
    Spells (r.diagram { DiagramStyle.usual with withMembers })
      ([.word "digraph".toList, .word "class_view".toList, .mark '\x7b'] ++
        (diagramHeading.flatMap fun line => line.1 ++ [.mark ';']) ++
        (r.toList.zipIdx.flatMap fun node =>
          nodeTokens { DiagramStyle.usual with withMembers } node.1 node.2 ++ [.mark ';']) ++
        (r.relations.flatMap fun x =>
          edgeTokens x.kind (r.names.idxOf x.source) (r.names.idxOf x.target) ++ [.mark ';']) ++
        [.mark '\x7d']) := by
  have hnode (node : TypeRecord × Nat) :
      Spells (nodeLine { DiagramStyle.usual with withMembers } node.1 node.2)
        (nodeTokens { DiagramStyle.usual with withMembers } node.1 node.2 ++ [.mark ';']) :=
    spells_nodeLine (sealed_fillColor node.1.kind withMembers) node.2
  have hnodes := spells_join fun node (_ : node ∈ r.toList.zipIdx) => hnode node
  have hbreak : Spells "\n" [] := rfl
  have hedges := spells_join fun x (_ : x ∈ r.relations) =>
    spells_edgeLine x.kind (r.names.idxOf x.source) (r.names.idxOf x.target) withMembers
  have hbrace : Spells "\x7d\n" [.mark '\x7d'] := rfl
  have hall := ((spells_diagramHeading.append hnodes).append_blank hbreak).append hedges
  rw [h.diagram_eq]
  exact hall.append hbrace

/-- **A diagram is well formed and complete.**  The diagram of a registry that was
built, in the usual style with or without members, is read back as a graph with one
node for each record, numbered in the order of registration, and one edge for each
relation in order, between the positions of its ends, which are registered.  Different
positions have different nodes.  The label of a node ends at the quote that closes it,
and undoing the escapes in it gives back kind, full name and the texts of the
members, whatever characters these hold. -/
theorem Built.diagram_reads (h : r.Built) (withMembers : Bool) :
    GraphText.read? (r.diagram { DiagramStyle.usual with withMembers }) =
      some ⟨"class_view", diagramHeading.map Prod.snd ++
        r.toList.mapIdx (fun i t => GraphText.Statement.node (nodeName i)
          [("label", label { DiagramStyle.usual with withMembers } t),
            ("fillcolor", fillColor DiagramStyle.usual t.kind)]) ++
        r.relations.map fun x => GraphText.Statement.edge
          (nodeName (r.names.idxOf x.source)) (nodeName (r.names.idxOf x.target))
          (("label", x.kind.name) :: arrow x.kind)⟩ ∧
    (∀ x ∈ r.relations, x.source ∈ r.names ∧ x.target ∈ r.names) ∧
    (∀ i j, nodeName i = nodeName j → i = j) ∧
    (∀ t ∈ r.toList, readLabel? (label { DiagramStyle.usual with withMembers } t) =
      some (t.kind.keyword, t.fullName, if withMembers then memberTexts t else [])) := by
  refine ⟨?_, fun x hx => h.valid.ends_mem_names hx, fun _ _ => nodeName_injective,
    fun t _ => readLabel?_label _ t⟩
  have hheading : ∀ line ∈ diagramHeading,
      .mark ';' ∉ line.1 ∧ GraphText.statement? line.1 = some line.2 := by decide +kernel
  have hnodes := statementsFrom_flatMap fun node (_ : node ∈ r.toList.zipIdx) =>
    statement?_nodeTokens { DiagramStyle.usual with withMembers } node.1 node.2
  have hedges := statementsFrom_flatMap fun x (_ : x ∈ r.relations) =>
    statement?_edgeTokens x.kind (r.names.idxOf x.source) (r.names.idxOf x.target)
  have hbrace : statementsFrom [] [.mark '\x7d'] = some [] := rfl
  rw [GraphText.read?, tokens?_of_spells (h.valid.spells_diagram withMembers)]
  simp only [List.append_assoc, List.cons_append, List.nil_append, Option.bind_eq_bind,
    Option.bind_some]
  rw [statementsFrom_flatMap hheading, hnodes, hedges, hbrace, List.mapIdx_eq_zipIdx_map]
  simp [fillColor]

/-- A class whose name holds all that a label escapes, and which has a field of another
class. -/
def oddBox : TypeRecord :=
  (TypeRecord.start "box.A\"<\\l>\n" .classType).addField
    (Member.declare .privateAccess "top" (some "Lid") false false)

/-- The other class. -/
def lid : TypeRecord := .start "box.Lid" .classType

/-- The label of the class with the odd name ends at the right quote. -/
theorem diagram_reads_oddBox :
    ((empty.append oddBox).append lid).Built ∧
      ((empty.append oddBox).append lid).relations =
        [⟨.association, "box.A\"<\\l>\n", "box.Lid"⟩] ∧
      GraphText.read? (((empty.append oddBox).append lid).diagram
          { DiagramStyle.usual with withMembers := true }) =
        some ⟨"class_view", diagramHeading.map Prod.snd ++
          [.node "n0" [("label", "«class»\\nbox.A\\\"\\<\\\\l\\>\\n\\l- top : Lid\\l"),
              ("fillcolor", "#FFE082")],
            .node "n1" [("label", "«class»\\nbox.Lid\\l"), ("fillcolor", "#FFE082")],
            .edge "n0" "n1" [("label", "association"), ("arrowhead", "vee")]]⟩ ∧
      readLabel? (label { DiagramStyle.usual with withMembers := true } oddBox) =
        some ("class", "box.A\"<\\l>\n", ["- top : Lid"]) := by
  have hbuilt : ((empty.append oddBox).append lid).Built :=
    (Built.empty.append (by decide +kernel)).append (by decide +kernel)
  have hrelations : ((empty.append oddBox).append lid).relations =
      [⟨.association, "box.A\"<\\l>\n", "box.Lid"⟩] := by decide +kernel
  obtain ⟨hread, _, _, hlabels⟩ := hbuilt.diagram_reads true
  refine ⟨hbuilt, hrelations, ?_, ?_⟩
  · rw [hread, hrelations]
    decide +kernel
  · rw [hlabels oddBox (by simp)]
    decide +kernel

end Registry

end JavaOutline
