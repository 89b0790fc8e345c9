import JavaOutline.Files.Path

/-!
# JavaOutline.Proofs.Paths

Paths as they are compared, and the paths of what lies below a directory.

Paths are compared part by part (`Path.Before`).  The parts of a path (`Path.parts`)
are its root, a single dot that it begins with, the steps back, and the other steps,
in this order of precedence; two steps are compared by their names.

The path of an entry of a directory has the parts of the directory and the name of
the entry as one more (`Path.parts_join`).  So what lies below an entry comes before
what lies below another exactly as their names are ordered
(`Path.before_below_of_lt`), and steps can be read off a path
(`Path.eq_of_below_eq`).  The extension of such a path is that of the last name
(`Path.hasExtension_below`).
-/

namespace JavaOutline

namespace Path

/-! ## The order of paths -/

/-- A part of a path. -/
inductive Part where
  /-- Where an absolute path begins. -/
  | root
  /-- The single dot that a path begins with. -/
  | here
  /-- A step back. -/
  | back
  | step (name : String)
  deriving DecidableEq, Repr

namespace Part

/-- The precedence of a part. -/
def rank : Part → Nat
  | root => 0
  | here => 1
  | back => 2
  | step _ => 3

/-- The order of parts: by precedence, and steps by name. -/
def Before : Part → Part → Prop
  | step a, step b => a < b
  | a, b => a.rank < b.rank

/-- The part that a component is which is a step. -/
def ofComponent (component : String) : Part := if component = ".." then back else step component

theorem not_before_self (a : Part) : ¬ a.Before a := by
  cases a with
  | step name => exact String.lt_irrefl name
  | root | here | back => exact Nat.lt_irrefl _

theorem not_before_of_before {a b : Part} (h : a.Before b) : ¬ b.Before a := by
  cases a <;> cases b <;> first | exact Nat.lt_asymm h | exact String.lt_asymm h

end Part

/-- The parts of a path. -/
def parts (path : String) : List Part :=
  let steps := ((components path).filter fun c => !isIdle c).map Part.ofComponent
  if isAbsolute path then .root :: steps
  else if (components path).head? = some "." then .here :: steps
  else steps

/-- The order of paths: part by part, and a path comes before those below it. -/
def Before (a b : String) : Prop := List.Lex Part.Before (parts a) (parts b)

theorem not_before_self (path : String) : ¬ Before path path :=
  List.lex_irrefl Part.not_before_self _

theorem not_before_of_before {a b : String} (h : Before a b) : ¬ Before b a :=
  List.lex_asymm (fun h => Part.not_before_of_before h) h

/-- An ascending list of paths holds each once. -/
theorem nodup_of_pairwise_before {paths : List String} (h : paths.Pairwise Before) :
    paths.Nodup := by
  refine h.imp ?_
  rintro a b hab rfl
  exact not_before_self a hab

/-- Ascending lists of the same paths are equal. -/
theorem eq_of_pairwise_before {xs ys : List String} (hx : xs.Pairwise Before)
    (hy : ys.Pairwise Before) (h : ∀ path, path ∈ xs ↔ path ∈ ys) : xs = ys := by
  have hperm : xs.Perm ys :=
    (List.perm_ext_iff_of_nodup (nodup_of_pairwise_before hx) (nodup_of_pairwise_before hy)).2 h
  exact hperm.eq_of_pairwise (fun a b _ _ hab hba => absurd hba (not_before_of_before hab)) hx hy

/-! ## Names of entries -/

/-- Whether a name is one that an entry of a directory can have. -/
structure IsStep (name : String) : Prop where
  not_idle : isIdle name = false
  ne_back : name ≠ ".."
  no_slash : '/' ∉ name.toList

instance (name : String) : Decidable (IsStep name) :=
  decidable_of_iff (isIdle name = false ∧ name ≠ ".." ∧ '/' ∉ name.toList)
    ⟨fun ⟨hidle, hback, hslash⟩ => ⟨hidle, hback, hslash⟩,
      fun h => ⟨h.not_idle, h.ne_back, h.no_slash⟩⟩

section

variable {base directory name rest : String} {names : List String}

theorem join_ne_empty (h : directory ≠ "") (name : String) : join directory name ≠ "" := by
  rw [join]
  split <;> simp [h]

/-- The path of an entry is that of its directory, a slash and the name, where the
directory may end in the slash. -/
theorem exists_join (h : directory ≠ "") (name : String) :
    ∃ base, join directory name = base ++ "/" ++ name ∧
      (directory = base ++ "/" ∨ directory = base ∧ base ≠ "") := by
  by_cases hslash : directory.toList.getLast? = some '/'
  · obtain ⟨front, hfront⟩ := List.getLast?_eq_some_iff.1 hslash
    have hdirectory : directory = String.ofList front ++ "/" :=
      String.toList_injective (by simp [hfront])
    exact ⟨String.ofList front, by simp [join, hfront, ← hdirectory], .inl hdirectory⟩
  · refine ⟨directory, ?_, .inr ⟨rfl, h⟩⟩
    cases hlast : directory.toList.getLast? with
    | none => exact absurd (List.getLast?_eq_none_iff.1 hlast) (by simpa using h)
    | some c => simp_all [join]

/-- What follows a slash and holds none is the last component. -/
theorem components_append (h : '/' ∉ rest.toList) (base : String) :
    components (base ++ "/" ++ rest) = components base ++ [rest] := by
  have htext : (base ++ "/" ++ rest).toList = base.toList ++ '/' :: rest.toList := by simp
  rw [components, htext, Text.pieces_append_last h, List.map_append, List.map_singleton,
    String.ofList_toList, components]

/-- Behind a slash at the end there is an empty component. -/
theorem components_slash (base : String) : components (base ++ "/") = components base ++ [""] := by
  have hempty : '/' ∉ "".toList := List.not_mem_nil
  simpa using components_append hempty base

theorem components_ne_nil (path : String) : components path ≠ [] := by
  simpa [components] using Text.pieces_ne_nil '/' path.toList

theorem head?_components_append (base last : String) :
    (components base ++ [last]).head? = (components base).head? := by
  obtain ⟨first, others, hcomponents⟩ := List.exists_cons_of_ne_nil (components_ne_nil base)
  rw [hcomponents]
  rfl

/-- A slash at the end of a path is no part of it. -/
theorem parts_slash (h : base ≠ "") : parts (base ++ "/") = parts base := by
  have habsolute : isAbsolute (base ++ "/") = isAbsolute base := by
    obtain ⟨c, chars, hbase⟩ := List.exists_cons_of_ne_nil (show base.toList ≠ [] by simpa using h)
    simp [isAbsolute, hbase]
  rw [parts, parts, components_slash, habsolute, head?_components_append]
  simp [isIdle]

/-- What follows a slash at the end of a path is one more part. -/
theorem parts_slash_append (h : IsStep name) (base : String) :
    parts (base ++ "/" ++ name) = parts (base ++ "/") ++ [.step name] := by
  have habsolute : isAbsolute (base ++ "/" ++ name) = isAbsolute (base ++ "/") := by
    cases hbase : base.toList <;> simp [isAbsolute, hbase]
  have hsteps : ((components base ++ [name]).filter fun c => !isIdle c).map Part.ofComponent =
      ((components base ++ [""]).filter fun c => !isIdle c).map Part.ofComponent ++
        [.step name] := by
    have hidle : isIdle "" = true := rfl
    simp [h.not_idle, hidle, Part.ofComponent, h.ne_back]
  rw [parts, parts, components_append h.no_slash, components_slash, habsolute,
    head?_components_append, head?_components_append, hsteps]
  split
  · rfl
  · split <;> rfl

/-- The path of an entry has one part more than that of its directory. -/
theorem parts_join (hname : IsStep name) (hdirectory : directory ≠ "") :
    parts (join directory name) = parts directory ++ [.step name] := by
  obtain ⟨base, hjoin, rfl | ⟨rfl, hbase⟩⟩ := exists_join hdirectory name
  · rw [hjoin, parts_slash_append hname]
  · rw [hjoin, parts_slash_append hname, parts_slash hbase]

/-! ## Paths below a directory -/

/-- The path at the end of some steps from a directory. -/
def below (directory : String) (names : List String) : String := names.foldl join directory

@[simp] theorem below_nil (directory : String) : below directory [] = directory := rfl

@[simp] theorem below_cons (directory name : String) (names : List String) :
    below directory (name :: names) = below (join directory name) names := rfl

theorem below_append (directory : String) (names more : List String) :
    below directory (names ++ more) = below (below directory names) more := List.foldl_append

theorem below_ne_empty (h : directory ≠ "") (names : List String) : below directory names ≠ "" := by
  induction names generalizing directory with
  | nil => exact h
  | cons name names ih => exact ih (join_ne_empty h name)

/-- The parts of a path below a directory. -/
theorem parts_below (hnames : ∀ name ∈ names, IsStep name) (hdirectory : directory ≠ "") :
    parts (below directory names) = parts directory ++ names.map Part.step := by
  induction names generalizing directory with
  | nil => simp
  | cons name names ih =>
    obtain ⟨hname, hrest⟩ := List.forall_mem_cons.1 hnames
    rw [below_cons, ih hrest (join_ne_empty hdirectory name), parts_join hname hdirectory]
    simp

/-- Different steps lead to different paths. -/
theorem eq_of_below_eq {others : List String} (hnames : ∀ name ∈ names, IsStep name)
    (hothers : ∀ name ∈ others, IsStep name) (hdirectory : directory ≠ "")
    (h : below directory names = below directory others) : names = others := by
  have hparts := congrArg parts h
  rw [parts_below hnames hdirectory, parts_below hothers hdirectory] at hparts
  exact List.map_inj_right (fun _ _ hab => Part.step.inj hab) |>.1 (List.append_cancel_left hparts)

/-- What lies below one entry comes before what lies below an entry of a greater name. -/
theorem before_below_of_lt {a b : String} {as bs : List String} (hlt : a < b)
    (has : ∀ name ∈ a :: as, IsStep name) (hbs : ∀ name ∈ b :: bs, IsStep name)
    (hdirectory : directory ≠ "") :
    Before (below directory (a :: as)) (below directory (b :: bs)) := by
  rw [Before, parts_below has hdirectory, parts_below hbs hdirectory]
  induction parts directory with
  | nil => exact .rel hlt
  | cons part parts ih => exact .cons ih

/-! ## Extensions -/

theorem fileName?_of_isStep (h : IsStep name) : fileName? name = some name := by
  have hcomponents : components name = [name] := by
    rw [components, Text.pieces_of_not_mem h.no_slash, List.map_singleton, String.ofList_toList]
  simp [fileName?, hcomponents, h.not_idle, h.ne_back]

/-- The file name of the path of an entry is the name of the entry. -/
theorem fileName?_join (hname : IsStep name) (hdirectory : directory ≠ "") :
    fileName? (join directory name) = some name := by
  obtain ⟨base, hjoin, -⟩ := exists_join hdirectory name
  simp [fileName?, hjoin, components_append hname.no_slash, hname.not_idle, hname.ne_back]

/-- The extension of a path below a directory is that of the last name. -/
theorem hasExtension_below (hname : IsStep name) (hdirectory : directory ≠ "")
    (extensions names : List String) :
    hasExtension extensions (below directory (names ++ [name])) =
      hasExtension extensions name := by
  rw [below_append, below_cons, below_nil, hasExtension, hasExtension, extension?, extension?,
    fileName?_join hname (below_ne_empty hdirectory names), fileName?_of_isStep hname]

end

end Path

end JavaOutline
