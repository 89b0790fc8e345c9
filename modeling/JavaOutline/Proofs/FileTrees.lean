import JavaOutline.Files.System
import JavaOutline.Proofs.Paths
import Mathlib.Data.List.Forall2

/-!
# JavaOutline.Proofs.FileTrees

Trees as a file system lists them.

* `FileTree.Leads` says what stands at the end of some steps from a tree.
* `FileTree.IsListing` is what a file system promises: in every directory each entry
  is listed once, under a name that is a step.
* `FileTree.Relisted` relates two listings of one tree, in which directories may list
  their entries in different orders.  One level of such trees holds the same names
  (`Relisted.sameLevel`), so the same steps lead to the same files
  (`Relisted.leads_file_iff`).
* A file system is listed as its working directory and the directories around it are
  (`FileSystem.IsListing`, `FileSystem.Relisted`), so the same paths lead to the same
  directories (`FileSystem.Relisted.find`).
-/

namespace JavaOutline

namespace FileTree

variable {tree other node next root : FileTree} {entries others : List (String × FileTree)}
  {name : String} {steps rest : List String} {bytes : List UInt8}

/-! ## Steps -/

/-- What stands at the end of some steps from a tree. -/
inductive Leads : FileTree → List String → FileTree → Prop
  | here (tree : FileTree) : Leads tree [] tree
  | step {entries : List (String × FileTree)} {name : String} {next node : FileTree}
      {rest : List String} (hentry : (name, next) ∈ entries) (hrest : Leads next rest node) :
      Leads (.directory entries) (name :: rest) node

theorem leads_nil_iff : tree.Leads [] node ↔ tree = node :=
  ⟨fun h => by cases h; rfl, fun h => h ▸ .here tree⟩

/-- The first step leads to an entry of a directory. -/
theorem leads_cons_iff : (directory entries).Leads (name :: rest) node ↔
    ∃ next, (name, next) ∈ entries ∧ next.Leads rest node :=
  ⟨fun h => by cases h with | step hentry hrest => exact ⟨_, hentry, hrest⟩,
    fun ⟨_, hentry, hrest⟩ => .step hentry hrest⟩

/-- Steps go on from where others have led. -/
theorem Leads.trans {more : List String} (h : tree.Leads steps node)
    (hmore : node.Leads more next) : tree.Leads (steps ++ more) next := by
  induction h with
  | here => exact hmore
  | step hentry _ ih => exact .step hentry (ih hmore)

/-- A statement about trees holds if it holds of files, and of directories of whose
entries it holds. -/
@[elab_as_elim]
theorem induction {motive : FileTree → Prop} (file : ∀ bytes, motive (.file bytes))
    (directory : ∀ entries, (∀ e ∈ entries, motive e.2) → motive (.directory entries)) :
    ∀ tree, motive tree
  | .file bytes => file bytes
  | .directory entries => directory entries fun e _ => induction file directory e.2
termination_by tree => sizeOf tree
decreasing_by
  rename_i he
  have hlt := List.sizeOf_lt_of_mem he
  have hle : sizeOf e.2 < sizeOf e := by
    cases e
    simp only [Prod.mk.sizeOf_spec]
    omega
  simp only [FileTree.directory.sizeOf_spec]
  omega

/-! ## Listings -/

/-- Whether every directory of a tree lists each entry once, under a name that is a
step. -/
def IsListing (tree : FileTree) : Prop :=
  ∀ steps entries, tree.Leads steps (.directory entries) →
    (entries.map Prod.fst).Nodup ∧ ∀ e ∈ entries, Path.IsStep e.1

/-- What is found in a listing is one. -/
theorem IsListing.of_leads (h : tree.IsListing) (hnode : tree.Leads steps node) :
    node.IsListing := fun _ entries hmore => h _ entries (hnode.trans hmore)

theorem isListing_file (bytes : List UInt8) : (file bytes).IsListing := fun _ _ h => nomatch h

/-- A directory is a listing if its names are as they should be and its entries are
listings. -/
theorem isListing_directory_iff : (directory entries).IsListing ↔
    (entries.map Prod.fst).Nodup ∧ ∀ e ∈ entries, Path.IsStep e.1 ∧ e.2.IsListing := by
  constructor
  · intro h
    obtain ⟨hnames, hsteps⟩ := h [] entries (.here _)
    exact ⟨hnames, fun e he => ⟨hsteps e he, h.of_leads (.step he (.here _))⟩⟩
  · rintro ⟨hnames, hentries⟩ steps inner h
    cases h with
    | here => exact ⟨hnames, fun e he => (hentries e he).1⟩
    | step hentry hrest => exact (hentries _ hentry).2 _ _ hrest

theorem IsListing.nodup (h : (directory entries).IsListing) : (entries.map Prod.fst).Nodup :=
  (isListing_directory_iff.1 h).1

theorem IsListing.entry {e : String × FileTree} (h : (directory entries).IsListing)
    (he : e ∈ entries) : e.2.IsListing :=
  ((isListing_directory_iff.1 h).2 e he).2

/-- The steps in a listing are steps. -/
theorem IsListing.isStep (h : tree.IsListing) (hnode : tree.Leads steps node) :
    ∀ name ∈ steps, Path.IsStep name := by
  induction hnode with
  | here => simp
  | @step entries name next node rest hentry hrest ih =>
    obtain ⟨-, hentries⟩ := isListing_directory_iff.1 h
    exact List.forall_mem_cons.2 ⟨(hentries _ hentry).1, ih (hentries _ hentry).2⟩

/-- The same steps lead to one place only. -/
theorem Leads.eq (h : tree.IsListing) (hnode : tree.Leads steps node)
    (hother : tree.Leads steps other) : node = other := by
  induction hnode with
  | here => exact leads_nil_iff.1 hother
  | @step entries name next node rest hentry hrest ih =>
    obtain ⟨next', hentry', hrest'⟩ := leads_cons_iff.1 hother
    have hsame : next = next' := by
      have hfound := Entries.lookup_of_mem h.nodup hentry
      rw [Entries.lookup_of_mem h.nodup hentry'] at hfound
      exact (Option.some.inj hfound).symm
    exact ih (h.entry hentry) (hsame ▸ hrest')

/-! ## Listings in another order -/

/-- Two listings of one tree: directories may list their entries in different
orders. -/
inductive Relisted : FileTree → FileTree → Prop
  | refl (tree : FileTree) : Relisted tree tree
  | reorder {entries others : List (String × FileTree)} (h : entries.Perm others) :
      Relisted (.directory entries) (.directory others)
  | inside {front back : List (String × FileTree)} {name : String} {tree other : FileTree}
      (h : Relisted tree other) :
      Relisted (.directory (front ++ (name, tree) :: back))
        (.directory (front ++ (name, other) :: back))
  | trans {tree middle other : FileTree} (h : Relisted tree middle) (h' : Relisted middle other) :
      Relisted tree other

theorem Relisted.symm (h : Relisted tree other) : Relisted other tree := by
  induction h with
  | refl tree => exact .refl tree
  | reorder h => exact .reorder h.symm
  | inside _ ih => exact .inside ih
  | trans _ _ ih ih' => exact .trans ih' ih

/-- What two listings of one tree have in common at the top. -/
def SameLevel : FileTree → FileTree → Prop
  | .file a, .file b => a = b
  | .directory entries, .directory others =>
    (entries.map Prod.fst).Perm (others.map Prod.fst) ∧
      ∀ e ∈ entries, ∃ tree, (e.1, tree) ∈ others ∧ Relisted e.2 tree
  | _, _ => False

theorem Relisted.sameLevel (h : Relisted tree other) : SameLevel tree other := by
  induction h with
  | refl tree =>
    cases tree with
    | file bytes => rfl
    | directory entries => exact ⟨.refl _, fun e he => ⟨e.2, he, .refl _⟩⟩
  | reorder h => exact ⟨h.map _, fun e he => ⟨e.2, h.subset he, .refl _⟩⟩
  | @inside front back name tree other h _ =>
    refine ⟨by simp, fun e he => ?_⟩
    rcases List.mem_append.1 he with he | he
    · exact ⟨e.2, List.mem_append_left _ he, .refl _⟩
    · rcases List.mem_cons.1 he with rfl | he
      · exact ⟨other, by simp, h⟩
      · exact ⟨e.2, by simp [he], .refl _⟩
  | @trans tree middle other _ _ ih ih' =>
    cases tree <;> cases middle <;> cases other <;> try contradiction
    · exact Eq.trans ih ih'
    · refine ⟨ih.1.trans ih'.1, fun e he => ?_⟩
      obtain ⟨mid, hmid, hrelisted⟩ := ih.2 e he
      obtain ⟨last, hlast, hrelisted'⟩ := ih'.2 _ hmid
      exact ⟨last, hlast, .trans hrelisted hrelisted'⟩

/-- The same steps lead to the same place in two listings of one tree. -/
theorem Relisted.leads (h : Relisted tree other) (hnode : tree.Leads steps node) :
    ∃ node', other.Leads steps node' ∧ Relisted node node' := by
  induction hnode generalizing other with
  | here => exact ⟨other, .here _, h⟩
  | @step entries name next node rest hentry hrest ih =>
    have hlevel := h.sameLevel
    cases other with
    | file bytes => contradiction
    | directory others =>
      obtain ⟨tree, hmem, hrelisted⟩ := hlevel.2 _ hentry
      obtain ⟨node', hnode', hrelisted'⟩ := ih hrelisted
      exact ⟨node', .step hmem hnode', hrelisted'⟩

/-- The same steps lead to the same files in two listings of one tree. -/
theorem Relisted.leads_file_iff (h : Relisted tree other) :
    tree.Leads steps (.file bytes) ↔ other.Leads steps (.file bytes) := by
  have hone : ∀ {a b : FileTree}, Relisted a b → a.Leads steps (.file bytes) →
      b.Leads steps (.file bytes) := fun hab ha => by
    obtain ⟨node, hnode, hrelisted⟩ := hab.leads ha
    have hlevel := hrelisted.sameLevel
    cases node with
    | file bytes' => exact (show bytes = bytes' from hlevel) ▸ hnode
    | directory entries => contradiction
  exact ⟨hone h, hone h.symm⟩

/-- Listing a tree in another order gives a listing. -/
theorem Relisted.isListing (h : Relisted tree other) (htree : tree.IsListing) :
    other.IsListing := by
  intro steps others hothers
  obtain ⟨node, hnode, hrelisted⟩ := h.symm.leads hothers
  have hlevel := hrelisted.sameLevel
  cases node with
  | file bytes => contradiction
  | directory entries =>
    obtain ⟨hnames, hsteps⟩ := htree steps entries hnode
    refine ⟨hlevel.1.nodup_iff.2 hnames, fun e he => ?_⟩
    obtain ⟨tree, hmem, -⟩ := hlevel.2 e he
    exact hsteps (e.1, tree) hmem

/-! ## Following paths -/

/-- Two listings of one tree are found, or nothing for the same reason. -/
def SameFound : Except PathFailure FileTree → Except PathFailure FileTree → Prop
  | .ok tree, .ok other => tree.IsListing ∧ Relisted tree other
  | .error failure, .error failure' => failure = failure'
  | _, _ => False

/-- The entry of a name in two listings of one directory. -/
theorem Relisted.entryOf? (h : Relisted (.directory entries) (.directory others))
    (hentries : (directory entries).IsListing) (name : String) :
    (FileTree.entryOf? name entries = none ∧ FileTree.entryOf? name others = none) ∨
      ∃ tree other, FileTree.entryOf? name entries = some tree ∧
        FileTree.entryOf? name others = some other ∧ Relisted tree other := by
  cases hentry : FileTree.entryOf? name others with
  | none =>
    refine .inl ⟨Option.eq_none_iff_forall_ne_some.2 fun tree htree => ?_, rfl⟩
    obtain ⟨other, hmem, -⟩ := h.sameLevel.2 _ (Entries.mem_of_lookup htree)
    have hfound := Entries.lookup_of_mem (h.isListing hentries).nodup hmem
    exact Option.some_ne_none other (hfound.symm.trans hentry)
  | some other =>
    obtain ⟨tree, hmem, hrelisted⟩ := h.symm.sameLevel.2 _ (Entries.mem_of_lookup hentry)
    exact .inr ⟨tree, other, Entries.lookup_of_mem hentries.nodup hmem, rfl, hrelisted.symm⟩

/-- Following the same components in two listings of one tree. -/
theorem Relisted.follow {outer outer' : List FileTree} {components : List String}
    (htree : Relisted tree other) (houter : List.Forall₂ Relisted outer outer')
    (hlisting : tree.IsListing) (hlistings : ∀ t ∈ outer, t.IsListing) :
    SameFound (FileTree.follow outer tree components)
      (FileTree.follow outer' other components) := by
  induction components generalizing outer outer' tree other with
  | nil => exact ⟨hlisting, htree⟩
  | cons component components ih =>
    have hlevel := htree.sameLevel
    cases tree <;> cases other <;> try contradiction
    · rfl
    · rename_i entries others
      simp only [FileTree.follow]
      split
      · exact ih htree houter hlisting hlistings
      · split
        · cases houter with
          | nil => exact ih htree .nil hlisting hlistings
          | cons hparent houter =>
            obtain ⟨hfirst, hrest⟩ := List.forall_mem_cons.1 hlistings
            exact ih hparent houter hfirst hrest
        · obtain ⟨hnone, hnone'⟩ | ⟨next, next', h, h', hnext⟩ :=
            htree.entryOf? hlisting component
          · rw [hnone, hnone']
            rfl
          · rw [h, h']
            exact ih hnext (.cons htree houter) (hlisting.entry (Entries.mem_of_lookup h))
              (List.forall_mem_cons.2 ⟨hlisting, hlistings⟩)

end FileTree

/-! ## File systems -/

namespace FileSystem

variable {files others : FileSystem} {node : FileTree} {path : String}

/-- Whether the working directory and those around it are listed as they should be. -/
structure IsListing (files : FileSystem) : Prop where
  working : files.working.IsListing
  outer : ∀ tree ∈ files.outer, tree.IsListing

/-- Two listings of one file system: directories may list their entries in different
orders. -/
structure Relisted (files others : FileSystem) : Prop where
  working : files.working.Relisted others.working
  outer : List.Forall₂ FileTree.Relisted files.outer others.outer

theorem Relisted.refl (files : FileSystem) : Relisted files files :=
  ⟨.refl _, List.forall₂_same.2 fun tree _ => .refl tree⟩

theorem Relisted.symm (h : Relisted files others) : Relisted others files :=
  ⟨h.working.symm, (h.outer.imp fun _ _ htree => htree.symm).flip⟩

/-- Listing a file system in another order gives a listing. -/
theorem Relisted.isListing (h : Relisted files others) (hfiles : files.IsListing) :
    others.IsListing := by
  have houter : List.Forall₂ (flip fun other tree => other.IsListing ∧ tree.Relisted other)
      files.outer others.outer :=
    ((List.forall₂_and_left _ _).2 ⟨hfiles.outer, h.outer⟩).imp fun _ _ htree =>
      ⟨htree.2.isListing htree.1, htree.2⟩
  exact ⟨h.working.isListing hfiles.working, ((List.forall₂_and_left _ _).1 houter.flip).1⟩

theorem IsListing.top (h : files.IsListing) : files.top.IsListing :=
  List.forall_mem_cons.2 ⟨h.working, h.outer⟩ _ List.getLastD_mem_cons

theorem Relisted.top (h : Relisted files others) : files.top.Relisted others.top := by
  obtain ⟨hworking, houter⟩ := h
  rw [FileSystem.top, FileSystem.top]
  generalize files.working = tree, others.working = other at hworking
  generalize files.outer = around, others.outer = around' at houter
  induction houter generalizing tree other with
  | nil => exact hworking
  | cons hparent _ ih =>
    rw [List.getLastD_cons, List.getLastD_cons]
    exact ih _ _ hparent

/-- The same path finds the same in two listings of one file system. -/
theorem Relisted.find (h : Relisted files others) (hfiles : files.IsListing) (path : String) :
    FileTree.SameFound (files.find path) (others.find path) := by
  rw [FileSystem.find, FileSystem.find]
  split
  · rfl
  · split
    · exact FileTree.Relisted.follow h.top .nil hfiles.top (by simp)
    · exact FileTree.Relisted.follow h.working h.outer hfiles.working hfiles.outer

/-- What a path finds in a listing is one. -/
theorem IsListing.find (h : files.IsListing) (hfind : files.find path = .ok node) :
    node.IsListing := by
  have hfound := (Relisted.refl files).find h path
  rw [hfind] at hfound
  exact hfound.1

end FileSystem

end JavaOutline
