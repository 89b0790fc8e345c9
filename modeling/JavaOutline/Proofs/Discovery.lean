import JavaOutline.Proofs.FileTrees

/-!
# JavaOutline.Proofs.Discovery

The files that are discovered below a directory.

The files found in a tree are those to which steps lead and whose extension is asked
for (`FileTree.mem_found_iff`), in ascending order of their paths
(`FileTree.pairwise_found`).  Both go by induction on the tree: entries are visited in
the order of their names, and what lies below one entry comes before what lies below
the next.  An ascending list is determined by what it holds, so the order in which
directories list their entries does not matter.

`FileSystem.discover_complete` puts this together, for every directory to which a path
leads from the working directory or from the outermost directory.
-/

namespace JavaOutline

namespace FileTree

variable {tree : FileTree} {entries : List (String × FileTree)}
  {extensions : List String} {path file : String} {bytes : List UInt8}

/-! ## Visiting a directory -/

/-- What is found below each entry of a directory. -/
theorem foundEach_eq_map (extensions : List String) (path : String)
    (entries : List (String × FileTree)) :
    foundEach extensions path entries =
      entries.map fun e => (e.1, found extensions (Path.join path e.1) e.2) := by
  induction entries with
  | nil => rfl
  | cons e entries ih => rw [foundEach, ih, List.map_cons]

theorem names_foundEach (extensions : List String) (path : String)
    (entries : List (String × FileTree)) :
    (foundEach extensions path entries).map Prod.fst = entries.map Prod.fst := by
  rw [foundEach_eq_map, List.map_map]
  rfl

/-- What is found in a directory is found below one of its entries. -/
theorem mem_found_directory_iff (h : (entries.map Prod.fst).Nodup) :
    file ∈ found extensions path (.directory entries) ↔
      ∃ e ∈ entries, file ∈ found extensions (Path.join path e.1) e.2 := by
  have hnames := names_foundEach extensions path entries ▸ h
  simp only [found, List.mem_flatMap, Entries.mem_ofList hnames]
  simp [foundEach_eq_map]

theorem mem_found_file_iff :
    file ∈ found extensions path (.file bytes) ↔
      file = path ∧ Path.hasExtension extensions path = true := by
  rw [found]
  split <;> simp [*]

/-- The files found in a tree are those at the end of its steps that have one of the
extensions. -/
theorem mem_found_iff (h : tree.IsListing) : file ∈ found extensions path tree ↔
    ∃ steps bytes, tree.Leads steps (.file bytes) ∧ file = Path.below path steps ∧
      Path.hasExtension extensions file = true := by
  induction tree using FileTree.induction generalizing path with
  | file bytes =>
    rw [mem_found_file_iff]
    constructor
    · rintro ⟨rfl, hextension⟩
      exact ⟨[], bytes, .here _, rfl, hextension⟩
    · rintro ⟨steps, other, hleads, rfl, hextension⟩
      cases hleads
      exact ⟨rfl, hextension⟩
  | directory entries ih =>
    rw [mem_found_directory_iff h.nodup]
    constructor
    · rintro ⟨e, he, hfile⟩
      obtain ⟨steps, bytes, hleads, hpath, hextension⟩ := (ih e he (h.entry he)).1 hfile
      exact ⟨e.1 :: steps, bytes, .step he hleads, hpath, hextension⟩
    · rintro ⟨steps, bytes, hleads, hpath, hextension⟩
      cases hleads with
      | step hentry hrest =>
        exact ⟨_, hentry, (ih _ hentry (h.entry hentry)).2 ⟨_, bytes, hrest, hpath, hextension⟩⟩

/-- The files found in a tree are in ascending order of their paths. -/
theorem pairwise_found (h : tree.IsListing) (hpath : path ≠ "") :
    (found extensions path tree).Pairwise Path.Before := by
  induction tree using FileTree.induction generalizing path with
  | file bytes =>
    rw [found]
    split
    · exact List.pairwise_singleton ..
    · exact .nil
  | directory entries ih =>
    have hnames := names_foundEach extensions path entries ▸ h.nodup
    rw [found, List.pairwise_flatMap]
    -- each visited entry is one of the directory
    have hvisited : ∀ visit ∈ Entries.ofList (foundEach extensions path entries),
        ∃ e ∈ entries, visit = (e.1, found extensions (Path.join path e.1) e.2) := by
      intro visit hvisit
      rw [Entries.mem_ofList hnames, foundEach_eq_map, List.mem_map] at hvisit
      obtain ⟨e, he, rfl⟩ := hvisit
      exact ⟨e, he, rfl⟩
    constructor
    · intro visit hvisit
      obtain ⟨e, he, rfl⟩ := hvisited visit hvisit
      exact ih e he (h.entry he) (Path.join_ne_empty hpath e.1)
    · refine (Entries.ascendingNames_ofList _).imp_of_mem ?_
      intro a b ha hb hlt x hx y hy
      obtain ⟨e, he, rfl⟩ := hvisited a ha
      obtain ⟨f, hf, rfl⟩ := hvisited b hb
      obtain ⟨steps, bytes, hleads, rfl, -⟩ := (mem_found_iff (h.entry he)).1 hx
      obtain ⟨steps', bytes', hleads', rfl, -⟩ := (mem_found_iff (h.entry hf)).1 hy
      exact Path.before_below_of_lt hlt (h.isStep (.step he hleads))
        (h.isStep (.step hf hleads')) hpath

end FileTree

namespace FileSystem

open FileTree

variable {files others : FileSystem} {node : FileTree} {entries : List (String × FileTree)}
  {extensions : List String} {path file : String}

/-! ## Discovery -/

theorem isDirectory_iff :
    files.isDirectory path = true ↔ ∃ entries, files.find path = .ok (.directory entries) := by
  rw [isDirectory]
  split
  · next entries hfind => simp [hfind]
  · next hnone =>
      simp only [Bool.false_eq_true, false_iff]
      rintro ⟨entries, hfind⟩
      exact hnone entries hfind

/-- What is discovered in a directory. -/
theorem discover_of_find (h : files.find path = .ok (.directory entries)) :
    files.discover extensions path = found extensions path (.directory entries) := by
  rw [discover, h]

/-- Nothing is discovered in what is no directory. -/
theorem discover_of_not_isDirectory (h : files.isDirectory path = false) :
    files.discover extensions path = [] := by
  rw [discover]
  split
  · next entries hfind => simp [isDirectory, hfind] at h
  · rfl

/-- A path that finds anything is not empty. -/
theorem ne_empty_of_find (h : files.find path = .ok node) : path ≠ "" := by
  rintro rfl
  cases h

/-- What is discovered are the files below a directory that have one of the
extensions. -/
theorem mem_discover_iff (h : files.IsListing) : file ∈ files.discover extensions path ↔
    ∃ entries steps bytes, files.find path = .ok (.directory entries) ∧
      (directory entries).Leads steps (.file bytes) ∧ file = Path.below path steps ∧
      Path.hasExtension extensions file = true := by
  cases hdirectory : files.isDirectory path with
  | false =>
    rw [discover_of_not_isDirectory hdirectory]
    refine iff_of_false List.not_mem_nil ?_
    rintro ⟨entries, -, -, hfind, -⟩
    exact Bool.false_ne_true (hdirectory.symm.trans (isDirectory_iff.2 ⟨entries, hfind⟩))
  | true =>
    obtain ⟨entries, hfind⟩ := isDirectory_iff.1 hdirectory
    rw [discover_of_find hfind, mem_found_iff (h.find hfind)]
    simp [hfind]

/-- What is discovered is in ascending order. -/
theorem pairwise_discover (h : files.IsListing) :
    (files.discover extensions path).Pairwise Path.Before := by
  cases hdirectory : files.isDirectory path with
  | false =>
    rw [discover_of_not_isDirectory hdirectory]
    exact .nil
  | true =>
    obtain ⟨entries, hfind⟩ := isDirectory_iff.1 hdirectory
    rw [discover_of_find hfind]
    exact pairwise_found (h.find hfind) (ne_empty_of_find hfind)

/-- What is discovered in a listing of files is discovered in every other. -/
theorem Relisted.mem_discover (h : Relisted files others) (hfiles : files.IsListing)
    (hfile : file ∈ files.discover extensions path) : file ∈ others.discover extensions path := by
  obtain ⟨entries, steps, bytes, hfind, hleads, hpath, hextension⟩ :=
    (mem_discover_iff hfiles).1 hfile
  have hfound := h.find hfiles path
  rw [hfind] at hfound
  cases hother : others.find path with
  | error failure => rw [hother] at hfound; contradiction
  | ok node =>
    rw [hother] at hfound
    have hlevel := hfound.2.sameLevel
    cases node with
    | file bytes => contradiction
    | directory entries =>
      exact (mem_discover_iff (h.isListing hfiles)).2
        ⟨entries, steps, bytes, hother, hfound.2.leads_file_iff.1 hleads, hpath, hextension⟩

/-- What is discovered does not depend on the order in which directories list their
entries. -/
theorem Relisted.discover (h : Relisted files others) (hfiles : files.IsListing) :
    others.discover extensions path = files.discover extensions path :=
  Path.eq_of_pairwise_before (pairwise_discover (h.isListing hfiles)) (pairwise_discover hfiles)
    fun _ => ⟨h.symm.mem_discover (h.isListing hfiles), h.mem_discover hfiles⟩

/-- **Discovery is complete and its order stable.**  In a listing of files, what is
discovered in a directory, wherever it is, are exactly the files at any depth below it
whose name has one of the extensions, and no directory, whatever its name.  In what is
no directory nothing is discovered.  The paths are in strictly ascending order, so each
is there once, and the same in every listing of the files. -/
theorem discover_complete (h : files.IsListing) (extensions : List String) (path : String) :
    (∀ entries, files.find path = .ok (.directory entries) →
      (∀ file, file ∈ files.discover extensions path ↔
        ∃ steps name bytes, (directory entries).Leads (steps ++ [name]) (.file bytes) ∧
          Path.hasExtension extensions name = true ∧ file = Path.below path (steps ++ [name])) ∧
      ∀ steps inner, (directory entries).Leads steps (.directory inner) →
        Path.below path steps ∉ files.discover extensions path) ∧
    (files.isDirectory path = false → files.discover extensions path = []) ∧
    (files.discover extensions path).Pairwise Path.Before ∧
    (files.discover extensions path).Nodup ∧
    ∀ others, Relisted files others →
      others.discover extensions path = files.discover extensions path := by
  refine ⟨fun entries hfind => ?_, discover_of_not_isDirectory, pairwise_discover h,
    Path.nodup_of_pairwise_before (pairwise_discover h), fun _ hothers => hothers.discover h⟩
  have hlisting := h.find hfind
  have hpath := ne_empty_of_find hfind
  rw [discover_of_find hfind]
  constructor
  · intro file
    rw [mem_found_iff hlisting]
    constructor
    · rintro ⟨steps, bytes, hleads, rfl, hextension⟩
      rcases List.eq_nil_or_concat' steps with rfl | ⟨front, name, rfl⟩
      · cases hleads
      · have hname := hlisting.isStep hleads name (by simp)
        rw [Path.hasExtension_below hname hpath] at hextension
        exact ⟨front, name, bytes, hleads, hextension, rfl⟩
    · rintro ⟨front, name, bytes, hleads, hextension, rfl⟩
      have hname := hlisting.isStep hleads name (by simp)
      exact ⟨_, bytes, hleads, rfl, by rwa [Path.hasExtension_below hname hpath]⟩
  · intro steps inner hleads hmem
    obtain ⟨steps', bytes, hleads', hpaths, -⟩ := (mem_found_iff hlisting).1 hmem
    have hsteps := Path.eq_of_below_eq (hlisting.isStep hleads) (hlisting.isStep hleads') hpath
      hpaths
    rw [← hsteps] at hleads'
    cases hleads.eq hlisting hleads'

/-- What a directory `src` holds: a directory beside a file whose name begins with its
name, and a directory whose name has the extension. -/
def sources : List (String × FileTree) :=
  [("b.java", .directory [("C.java", .file [])]), ("a.java", .file []),
    ("a", .directory [("note.txt", .file []), ("x.java", .file [])])]

/-- A directory `work` that holds a directory `src`, seen from inside. -/
def workshop (sources : List (String × FileTree)) : FileSystem where
  working := .directory [("src", .directory sources)]
  outer := [.directory [("work", .directory [("src", .directory sources)])]]
  directorySize _ := 4096

/-- What lies in the directory `a` comes before the file `a.java`, the directory
`b.java` is no file, and the same holds if entries are listed from the last to the
first.  From the outermost directory the same files are found. -/
theorem discover_complete_sources :
    (workshop sources).IsListing ∧
      (workshop sources).discover [".java"] "src" =
        ["src/a/x.java", "src/a.java", "src/b.java/C.java"] ∧
      "src/b.java" ∉ (workshop sources).discover [".java"] "src" ∧
      (workshop sources.reverse).discover [".java"] "src" =
        ["src/a/x.java", "src/a.java", "src/b.java/C.java"] ∧
      (workshop sources).discover [".java"] "/work/src" =
        ["/work/src/a/x.java", "/work/src/a.java", "/work/src/b.java/C.java"] := by
  have hlisting : (workshop sources).IsListing := by
    constructor <;>
      simp only [workshop, isListing_directory_iff, sources, List.forall_mem_cons,
        List.not_mem_nil, false_imp_iff, implies_true, isListing_file] <;>
      decide +kernel
  have hdiscover : (workshop sources).discover [".java"] "src" =
      ["src/a/x.java", "src/a.java", "src/b.java/C.java"] := by
    decide +kernel
  have hsource : FileTree.Relisted (directory ([] ++ ("src", .directory sources) :: []))
      (directory ([] ++ ("src", .directory sources.reverse) :: [])) :=
    .inside (.reorder (List.reverse_perm sources).symm)
  have houter : FileTree.Relisted
      (directory ([] ++ ("work", .directory [("src", .directory sources)]) :: []))
      (directory ([] ++ ("work", .directory [("src", .directory sources.reverse)]) :: [])) :=
    .inside hsource
  have hrelisted : (workshop sources).Relisted (workshop sources.reverse) :=
    ⟨hsource, .cons houter .nil⟩
  obtain ⟨hbelow, -, -, -, hstable⟩ := discover_complete hlisting [".java"] "src"
  refine ⟨hlisting, hdiscover, ?_, (hstable _ hrelisted).trans hdiscover, by decide +kernel⟩
  exact (hbelow sources rfl).2 ["b.java"] _ (.step List.mem_cons_self (.here _))

end FileSystem

end JavaOutline
