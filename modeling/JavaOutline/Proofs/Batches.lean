import JavaOutline.Proofs.SideBySide

/-!
# JavaOutline.Proofs.Batches

Batches in which some files cannot be read.

A batch comes to the same summary and the same registry in either mode
(`Reader.sameOutcome_readInTurn`), so it is enough to follow the files that are
read one after the other.  `Reader.Reads` says what some paths add to a summary
and to a registry: it holds of no path, of one path that is read or is not, and of
two lists of paths one after the other, so it holds of a batch
(`Reader.reads_foldl_readNext`).  Without the paths that fail a batch comes to the
same files and the same registry (`Reader.sameFiles_foldl_readNext`).

`Reader.readBatchOn_despite_failures` puts this together, on a machine that has the
workers of the batch (`Reader.readBatchOn_of_workers`); one that refuses them reads
nothing (`Reader.readBatchOn_of_refused`).
-/

namespace JavaOutline

namespace Reader

/-! ## Paths that fail -/

/-- A path that leads to no text, with the message. -/
def failed? (texts : String → Except ReadFailure String) (path : String) :
    Option (String × String) :=
  match texts path with
  | .error failure => some (path, failure.message)
  | .ok _ => none

/-- Whether a path leads to a text. -/
def isReadable (texts : String → Except ReadFailure String) (path : String) : Bool :=
  (failed? texts path).isNone

section

variable (reader : Reader) {texts : String → Except ReadFailure String} {path text : String}
  {failure : ReadFailure} {paths : List String} {s t u : BatchSummary × Collection}

/-- What has been read is the same after a path that fails. -/
theorem readNext_of_error (h : texts path = .error failure) (s : BatchSummary × Collection) :
    reader.readNext texts s path =
      (s.1.record path (.error failure),
        { s.2 with counters := s.2.counters.count (.error failure) }) := by
  simp only [readNext, attempt, readInto, h, Except.map]

theorem readNext_of_ok (h : texts path = .ok text) (s : BatchSummary × Collection) :
    reader.readNext texts s path =
      (s.1.record path (.ok (reader.readText path text s.2.registry).1),
        ⟨(reader.readText path text s.2.registry).2,
          s.2.counters.count (.ok (reader.readText path text s.2.registry).1)⟩) := by
  simp only [readNext, attempt, readInto, h, Except.map]

/-- Reading a file fails where its path leads to no text, for that reason, whatever
has been read before; and then the registry is as before. -/
theorem attempt_eq_error_iff (c : Collection) :
    (reader.attempt texts c path).1 = .error failure ↔ texts path = .error failure := by
  cases h : texts path <;> simp [attempt, readInto, h, Except.map]

theorem registry_attempt_of_error (h : texts path = .error failure) (c : Collection) :
    (reader.attempt texts c path).2.registry = c.registry := by
  simp only [attempt, readInto, h, Except.map]

/-! ## What a batch adds -/

/-- What paths have added to what was read before: each of them a file or a failure,
and the records of the types of these files. -/
structure Reads (texts : String → Except ReadFailure String) (paths : List String)
    (s t : BatchSummary × Collection) : Prop where
  failed : t.1.failed = s.1.failed ++ paths.filterMap (failed? texts)
  files : t.1.files.map FileSummary.path =
    s.1.files.map FileSummary.path ++ paths.filter (isReadable texts)
  records : ∃ new, t.2.registry.toList = s.2.registry.toList ++ new ∧
    t.1.files.flatMap FileSummary.types =
      s.1.files.flatMap FileSummary.types ++ new.map TypeRecord.fullName ∧
    t.1.types = s.1.types + new.length

theorem Reads.nil (texts : String → Except ReadFailure String) (s : BatchSummary × Collection) :
    Reads texts [] s s :=
  ⟨by simp, by simp, [], by simp⟩

theorem Reads.append {more : List String} (h : Reads texts paths s t) (h' : Reads texts more t u) :
    Reads texts (paths ++ more) s u := by
  obtain ⟨new, hlist, htypes, hcount⟩ := h.records
  obtain ⟨new', hlist', htypes', hcount'⟩ := h'.records
  refine ⟨?_, ?_, new ++ new', ?_, ?_, ?_⟩
  · rw [h'.failed, h.failed, List.filterMap_append, List.append_assoc]
  · rw [h'.files, h.files, List.filter_append, List.append_assoc]
  · rw [hlist', hlist, List.append_assoc]
  · rw [htypes', htypes, List.map_append, List.append_assoc]
  · rw [hcount', hcount, List.length_append, Nat.add_assoc]

/-- One more path adds a failure, or a file with the records that are fresh. -/
theorem reads_readNext (s : BatchSummary × Collection) (path : String) :
    Reads texts [path] s (reader.readNext texts s path) := by
  cases h : texts path with
  | error failure =>
      rw [readNext_of_error reader h]
      exact ⟨by simp [BatchSummary.record, failed?, h],
        by simp [BatchSummary.record, isReadable, failed?, h], [], by simp [BatchSummary.record]⟩
  | ok text =>
      rw [readNext_of_ok reader h]
      refine ⟨by simp [BatchSummary.record, failed?, h],
        by simp [BatchSummary.record, isReadable, failed?, h, readText],
        s.2.registry.fresh (outline reader.settings.wantsLocals text), ?_, ?_, ?_⟩
      all_goals simp [BatchSummary.record, readText, Registry.readText_eq]

/-- Paths that are read one after the other add what they are. -/
theorem reads_foldl_readNext (texts : String → Except ReadFailure String) (paths : List String)
    (s : BatchSummary × Collection) : Reads texts paths s (paths.foldl (reader.readNext texts) s) := by
  induction paths generalizing s with
  | nil => exact .nil texts s
  | cons path paths ih => exact (reader.reads_readNext s path).append (ih _)

/-- Every path of a batch is a file or a failure. -/
theorem Reads.paths_eq (h : Reads texts paths s t) : t.1.paths = s.1.paths + paths.length := by
  have hfiles := congrArg List.length h.files
  have hfailed := congrArg List.length h.failed
  have hsplit : (paths.filter (isReadable texts)).length +
      (paths.filterMap (failed? texts)).length = paths.length := by
    clear h hfiles hfailed
    induction paths with
    | nil => rfl
    | cons path paths ih => cases hp : failed? texts path <;> grind [isReadable]
  simp only [List.length_map, List.length_append] at hfiles hfailed
  simp only [BatchSummary.paths]
  omega

/-! ## Without the paths that fail -/

/-- Two batches have come to the same files and records. -/
def SameFiles (s t : BatchSummary × Collection) : Prop :=
  s.1.files = t.1.files ∧ s.2.registry = t.2.registry

/-- Without the paths that fail a batch comes to the same files and records. -/
theorem sameFiles_foldl_readNext (texts : String → Except ReadFailure String)
    (paths : List String) (h : SameFiles s t) :
    SameFiles (paths.foldl (reader.readNext texts) s)
      ((paths.filter (isReadable texts)).foldl (reader.readNext texts) t) := by
  induction paths generalizing s t with
  | nil => exact h
  | cons path paths ih =>
      rw [List.foldl_cons]
      cases htext : texts path with
      | error failure =>
          rw [List.filter_cons_of_neg (by simp [isReadable, failed?, htext]),
            readNext_of_error reader htext]
          exact ih h
      | ok text =>
          rw [List.filter_cons_of_pos (by simp [isReadable, failed?, htext]), List.foldl_cons]
          refine ih ?_
          rw [readNext_of_ok reader htext, readNext_of_ok reader htext, h.2]
          exact ⟨by simp only [BatchSummary.record, h.1], rfl⟩

/-- In either mode a batch comes to what its files come to one after the other. -/
theorem sameOutcome_readInTurn (texts : String → Except ReadFailure String) (c : Collection)
    (paths : List String) :
    SameOutcome (reader.readBatch texts c paths) (reader.readInTurn texts c paths) := by
  rw [readBatch]
  split
  · exact foldl_mergeNext reader texts paths ⟨rfl, rfl⟩
  · exact ⟨rfl, rfl⟩

/-! ## Workers -/

variable {workers : Workers}

/-- With the workers that it needs a machine reads the whole batch. -/
theorem readBatchOn_of_workers
    (h : reader.readsSideBySide = true → workers reader.settings.workers = .ok ())
    (texts : String → Except ReadFailure String) (c : Collection) (paths : List String) :
    reader.readBatchOn workers texts c paths =
      (.ok (reader.readBatch texts c paths).1, (reader.readBatch texts c paths).2) := by
  have hengaged : reader.engage workers = .ok () := by
    rw [engage]
    split
    · next hside => rw [h hside]; rfl
    · rfl
  rw [readBatchOn, hengaged]

/-- Without them it reads nothing, and says why. -/
theorem readBatchOn_of_refused {cause : String} (hside : reader.readsSideBySide = true)
    (h : workers reader.settings.workers = .error cause)
    (texts : String → Except ReadFailure String) (c : Collection) (paths : List String) :
    reader.readBatchOn workers texts c paths =
      (.error (.unregistered ("Failed to create thread pool: " ++ cause)), c) := by
  rw [readBatchOn, engage, if_pos hside, h]
  rfl

/-! ## Batches -/

/-- **A failing file has no effect on the rest of a batch.**  Whatever the reader
and its mode, the text or the failure that each path leads to, what has been read
before and the paths, on a machine with the workers that the reader needs:

1. a path fails for one reason, whatever has been read before, and reading it then
   leaves the registry as it was;
2. a batch succeeds with a summary of all its paths, with those that fail in order,
   each with its message, and the files of the others in order;
3. so does the batch without the paths that fail, with the same files and the same
   registry;
4. the registry keeps its records and gets new ones, whose names are those of the
   files one after the other, and whose number is the number of types. -/
theorem readBatchOn_despite_failures
    (hworkers : reader.readsSideBySide = true → workers reader.settings.workers = .ok ())
    (texts : String → Except ReadFailure String) (c : Collection) (paths : List String) :
    (∀ path failure, (reader.attempt texts c path).1 = .error failure →
      texts path = .error failure ∧ (reader.attempt texts c path).2.registry = c.registry) ∧
    (∀ path failure, texts path = .error failure →
      (reader.attempt texts c path).1 = .error failure) ∧
    ∃ batch after kept afterKept,
      reader.readBatchOn workers texts c paths = (.ok batch, after) ∧
      reader.readBatchOn workers texts c (paths.filter (isReadable texts)) =
        (.ok kept, afterKept) ∧
      batch.paths = paths.length ∧
      batch.failed = paths.filterMap (failed? texts) ∧
      batch.files.map FileSummary.path = paths.filter (isReadable texts) ∧
      kept.files = batch.files ∧ kept.failed = [] ∧ afterKept.registry = after.registry ∧
      ∃ new, after.registry.toList = c.registry.toList ++ new ∧
        new.map TypeRecord.fullName = batch.files.flatMap FileSummary.types ∧
        new.length = batch.types := by
  obtain ⟨hsummary, hregistry⟩ := reader.sameOutcome_readInTurn texts c paths
  obtain ⟨hsummary', hregistry'⟩ :=
    reader.sameOutcome_readInTurn texts c (paths.filter (isReadable texts))
  have hreads := reader.reads_foldl_readNext texts paths (.empty, c)
  have hreads' := reader.reads_foldl_readNext texts (paths.filter (isReadable texts)) (.empty, c)
  have hnone : (paths.filter (isReadable texts)).filterMap (failed? texts) = [] := by
    simp [List.filterMap_eq_nil_iff, isReadable]
  obtain ⟨hfiles, hrecords⟩ :=
    reader.sameFiles_foldl_readNext texts paths (s := (.empty, c)) (t := (.empty, c)) ⟨rfl, rfl⟩
  obtain ⟨new, hlist, htypes, hcount⟩ := hreads.records
  refine ⟨fun path failure hfails => ?_, fun path failure => (reader.attempt_eq_error_iff c).2,
    _, _, _, _, reader.readBatchOn_of_workers hworkers texts c paths,
    reader.readBatchOn_of_workers hworkers texts c _, ?_⟩
  · have htext := (reader.attempt_eq_error_iff c).1 hfails
    exact ⟨htext, reader.registry_attempt_of_error htext c⟩
  · rw [hsummary, hregistry, hsummary', hregistry']
    exact ⟨hreads.paths_eq.trans (Nat.zero_add _), hreads.failed, hreads.files, hfiles.symm,
      hreads'.failed.trans hnone, hrecords.symm, new, hlist, htypes.symm,
      (hcount.trans (Nat.zero_add _)).symm⟩

end

/-- A machine with four workers reads two files side by side, one of which is
missing. -/
theorem readBatchOn_despite_failures_missing :
    let reader := Reader.java { Settings.usual with parallel := true, workers := some 4 }
    let machine : Workers := fun wanted =>
      if wanted.all (· ≤ 4) then .ok () else .error "too many threads"
    let texts := reader.textOf
      (FileTree.directory [("a.java", .file "class A \x7b \x7d".toUTF8.toList)])
    (reader.readsSideBySide = true → machine reader.settings.workers = .ok ()) ∧
    ∃ batch after, reader.readBatchOn machine texts .empty ["b.java", "a.java"] = (.ok batch, after) ∧
      batch.paths = 2 ∧
      batch.failed =
        [("b.java", "IO error reading b.java: No such file or directory (os error 2)")] ∧
      batch.files.map FileSummary.path = ["a.java"] := by
  intro reader machine texts
  have hworkers : reader.readsSideBySide = true → machine reader.settings.workers = .ok () :=
    fun _ => rfl
  obtain ⟨-, -, batch, after, -, -, hbatch, -, hpaths, hfailed, hfiles, -⟩ :=
    reader.readBatchOn_despite_failures hworkers texts .empty ["b.java", "a.java"]
  exact ⟨hworkers, batch, after, hbatch, hpaths, hfailed.trans (by decide +kernel),
    hfiles.trans (by decide +kernel)⟩

end Reader

end JavaOutline
