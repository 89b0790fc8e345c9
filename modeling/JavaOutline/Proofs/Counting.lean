import JavaOutline.Proofs.Batches

/-!
# JavaOutline.Proofs.Counting

What a batch adds to the counters of its reader.

A path counts once in the summary and once in the counters, however it is read
(`Reader.Counted`).  With the types it depends on the mode.  Of files that are read
one after the other the counters count the types that are registered
(`Reader.counted_foldl_readNext`).  Of files that are read side by side they count
the types of each file on its own (`Reader.counted_foldl_mergeNext`), before it is
seen which names are taken.

`Reader.readBatch_counts` says from this what a batch adds, and when the counters
keep to what is registered.
-/

namespace JavaOutline

namespace Reader

/-! ## Counting paths -/

/-- What has been read counts in the counters as in the summary, and `types` more
types are counted. -/
structure Counted (s t : BatchSummary × Collection) (types : Nat) : Prop where
  attempted : t.2.counters.attempted + s.1.paths = s.2.counters.attempted + t.1.paths
  succeeded : t.2.counters.succeeded + s.1.files.length = s.2.counters.succeeded + t.1.files.length
  failed : t.2.counters.failed + s.1.failed.length = s.2.counters.failed + t.1.failed.length
  types : t.2.counters.types = s.2.counters.types + types

section

variable {s t u : BatchSummary × Collection} {m n : Nat}

theorem Counted.refl (s : BatchSummary × Collection) : Counted s s 0 := ⟨rfl, rfl, rfl, rfl⟩

theorem Counted.trans (h : Counted s t m) (h' : Counted t u n) : Counted s u (m + n) where
  attempted := by have := h.attempted; have := h'.attempted; omega
  succeeded := by have := h.succeeded; have := h'.succeeded; omega
  failed := by have := h.failed; have := h'.failed; omega
  types := by rw [h'.types, h.types, Nat.add_assoc]

/-- A file counts, with the types that the counters are told of. -/
theorem counted_file (s : BatchSummary × Collection) (path : String) (file counted : FileSummary)
    (r : Registry) :
    Counted s (s.1.record path (.ok file), ⟨r, s.2.counters.count (.ok counted)⟩)
      counted.types.length := by
  constructor <;>
    simp only [BatchSummary.record, BatchSummary.paths, Counters.count, Counters.add,
      List.length_append, List.length_singleton] <;> omega

/-- A failure counts, without types. -/
theorem counted_failure (s : BatchSummary × Collection) (path : String) (failure : ReadFailure) :
    Counted s (s.1.record path (.error failure),
      { s.2 with counters := s.2.counters.count (.error failure) }) 0 := by
  constructor <;>
    simp only [BatchSummary.record, BatchSummary.paths, Counters.count, Counters.add,
      List.length_append, List.length_singleton] <;> omega

end

/-! ## Counting types -/

/-- The records that a path gives on its own. -/
def ownTypes (reader : Reader) (texts : String → Except ReadFailure String) (path : String) :
    List TypeRecord :=
  match texts path with
  | .ok text => (Registry.empty.readText reader.settings.wantsLocals text).1.toList
  | .error _ => []

section

variable (reader : Reader) (texts : String → Except ReadFailure String)

/-- A path that is read next counts with the types that are registered. -/
theorem counted_readNext (s : BatchSummary × Collection) (path : String) :
    ∃ n, Counted s (reader.readNext texts s path) n ∧
      (reader.readNext texts s path).1.types = s.1.types + n := by
  cases h : texts path with
  | error failure =>
      rw [readNext_of_error reader h]
      exact ⟨0, counted_failure s path failure, rfl⟩
  | ok text =>
      rw [readNext_of_ok reader h]
      exact ⟨_, counted_file s path _ _ _, rfl⟩

/-- A path that was read on its own counts with all types that it gives. -/
theorem counted_mergeNext (s : BatchSummary × Collection) (path : String) :
    Counted s (mergeNext s (path, reader.readInto texts path .empty))
      (reader.ownTypes texts path).length := by
  cases h : texts path with
  | error failure =>
      simp only [readInto, ownTypes, h, Except.map]
      exact counted_failure s path failure
  | ok text =>
      have htypes : (Registry.empty.readText reader.settings.wantsLocals text).1.toList.length =
          (Registry.empty.readText reader.settings.wantsLocals text).2.length := by
        simp [Registry.readText_eq]
      simp only [readInto, ownTypes, h, Except.map, htypes]
      exact counted_file s path _ _ _

/-- Files that are read one after the other count with the types that are registered. -/
theorem counted_foldl_readNext (paths : List String) (s : BatchSummary × Collection) :
    ∃ n, Counted s (paths.foldl (reader.readNext texts) s) n ∧
      (paths.foldl (reader.readNext texts) s).1.types = s.1.types + n := by
  induction paths generalizing s with
  | nil => exact ⟨0, .refl s, rfl⟩
  | cons path paths ih =>
      obtain ⟨m, hnext, hm⟩ := reader.counted_readNext texts s path
      obtain ⟨n, hrest, hn⟩ := ih (reader.readNext texts s path)
      exact ⟨m + n, hnext.trans hrest, by rw [List.foldl_cons, hn, hm, Nat.add_assoc]⟩

/-- Files that are read side by side count with all types that each of them gives. -/
theorem counted_foldl_mergeNext (paths : List String) (s : BatchSummary × Collection) :
    Counted s
      ((paths.map fun path => (path, reader.readInto texts path .empty)).foldl mergeNext s)
      (paths.flatMap (reader.ownTypes texts)).length := by
  induction paths generalizing s with
  | nil => exact .refl s
  | cons path paths ih =>
      rw [List.map_cons, List.foldl_cons, List.flatMap_cons, List.length_append]
      exact (reader.counted_mergeNext texts s path).trans (ih _)

/-! ## The types of a batch -/

/-- A batch registers what is fresh of the records that its paths give. -/
theorem registry_foldl_readNext (paths : List String) (s : BatchSummary × Collection) :
    (paths.foldl (reader.readNext texts) s).2.registry =
      (s.2.registry.fresh (paths.flatMap (reader.ownTypes texts))).foldl Registry.append
        s.2.registry := by
  induction paths generalizing s with
  | nil => rfl
  | cons path paths ih =>
      have hnext : (reader.readNext texts s path).2.registry =
          (s.2.registry.fresh (reader.ownTypes texts path)).foldl Registry.append s.2.registry := by
        cases h : texts path with
        | error failure =>
            rw [readNext_of_error reader h, ownTypes, h]
            rfl
        | ok text =>
            have hfresh := (s.2.registry.registerAll_fresh
              (outline reader.settings.wantsLocals text)).1
            rw [readNext_of_ok reader h, ownTypes, h]
            simpa [readText, Registry.readText_eq] using hfresh.symm
      rw [List.foldl_cons, ih, hnext, List.flatMap_cons, Registry.fresh_append, List.foldl_append]

/-- The types of a batch are the fresh ones of the records that its paths give. -/
theorem types_foldl_readNext (paths : List String) (c : Collection) :
    (paths.foldl (reader.readNext texts) (.empty, c)).1.types =
      (c.registry.fresh (paths.flatMap (reader.ownTypes texts))).length := by
  obtain ⟨new, hlist, -, hcount⟩ :=
    (reader.reads_foldl_readNext texts paths (.empty, c)).records
  rw [reader.registry_foldl_readNext texts paths, Registry.toList_foldl_append] at hlist
  rw [hcount, List.append_cancel_left hlist]
  exact Nat.zero_add _

end

/-! ## Sequences of calls -/

/-- What a reader is asked for: a file or a batch, each with the texts and the
records of the time and the machine that a batch is read on, or to forget what it has
counted. -/
inductive Call where
  | file (texts : String → Except ReadFailure String) (r : Registry) (path : String)
  | batch (workers : Workers) (texts : String → Except ReadFailure String) (r : Registry)
      (paths : List String)
  | reset

/-- The counters after one more call. -/
def Call.count (reader : Reader) (counters : Counters) : Call → Counters
  | .file texts r path => (reader.attempt texts ⟨r, counters⟩ path).2.counters
  | .batch workers texts r paths =>
    (reader.readBatchOn workers texts ⟨r, counters⟩ paths).2.counters
  | .reset => .zero

/-- Every file that is attempted is read or not. -/
def Balanced (c : Counters) : Prop := c.attempted = c.succeeded + c.failed

/-- What is counted as in a summary is balanced if it was. -/
theorem Counted.balanced {s t : BatchSummary × Collection} {n : Nat} (h : Counted s t n)
    (hs : Balanced s.2.counters) : Balanced t.2.counters := by
  have hattempted := h.attempted
  have hsucceeded := h.succeeded
  have hfailed := h.failed
  unfold Balanced BatchSummary.paths at *
  omega

/-- A batch counts as its summary says, whatever number of types. -/
theorem counted_readBatch (reader : Reader) (texts : String → Except ReadFailure String)
    (c : Collection) (paths : List String) :
    Counted (.empty, c) (reader.readBatch texts c paths)
      (if reader.readsSideBySide then (paths.flatMap (reader.ownTypes texts)).length
        else (reader.readBatch texts c paths).1.types) := by
  rw [readBatch]
  split
  · exact reader.counted_foldl_mergeNext texts paths (.empty, c)
  · obtain ⟨n, hcounted, htypes⟩ := reader.counted_foldl_readNext texts paths (.empty, c)
    rw [readInTurn, htypes]
    exact (Nat.zero_add n).symm ▸ hcounted

/-- One call keeps the counters balanced. -/
theorem balanced_count (reader : Reader) {counters : Counters} (h : Balanced counters)
    (call : Call) : Balanced (call.count reader counters) := by
  cases call with
  | file texts r path =>
      obtain ⟨n, hcounted, -⟩ := reader.counted_readNext texts (.empty, ⟨r, counters⟩) path
      exact hcounted.balanced h
  | batch workers texts r paths =>
      rw [Call.count, readBatchOn]
      split
      · exact h
      · exact (reader.counted_readBatch texts ⟨r, counters⟩ paths).balanced h
  | reset => rfl

/-- Calls keep the counters balanced. -/
theorem balanced_foldl_count (reader : Reader) (calls : List Call) {counters : Counters}
    (h : Balanced counters) : Balanced (calls.foldl (Call.count reader) counters) := by
  induction calls generalizing counters with
  | nil => exact h
  | cons call calls ih => exact ih (reader.balanced_count h call)

/-! ## Counters -/

/-- **What a batch adds to the counters.**  Whatever the reader and its mode, the text
or the failure that each path leads to, what has been read before and the paths:

1. every path counts as attempted, every file as read and every failure as failed,
   as they do in the summary;
2. the registry gets as many records as the summary has types;
3. the counters count as many types as the summary has if the files are read one after
   the other; if they are read side by side, as many as the files have on their own;
4. so these agree only if the files are not read side by side or their types have
   distinct names, none of them taken.

After any calls of a reader, those included for which a machine refuses the workers, the
attempted files are those that were read and those that failed. -/
theorem readBatch_counts (reader : Reader) (texts : String → Except ReadFailure String)
    (c : Collection) (paths : List String) :
    let own := paths.flatMap (reader.ownTypes texts)
    let batch := reader.readBatch texts c paths
    let counters := batch.2.counters
    counters.attempted = c.counters.attempted + batch.1.paths ∧
    counters.succeeded = c.counters.succeeded + batch.1.files.length ∧
    counters.failed = c.counters.failed + batch.1.failed.length ∧
    batch.2.registry.size = c.registry.size + batch.1.types ∧
    counters.types = c.counters.types +
      (if reader.readsSideBySide then own.length else batch.1.types) ∧
    (counters.types = c.counters.types + batch.1.types ↔
      (reader.readsSideBySide = true → (own.map TypeRecord.fullName).Nodup ∧
        ∀ t ∈ own, c.registry.contains t.fullName = false)) ∧
    ∀ calls : List Call, Balanced (calls.foldl (Call.count reader) .zero) := by
  intro own batch counters
  have hcounted : Counted (.empty, c) batch
      (if reader.readsSideBySide then own.length else batch.1.types) :=
    reader.counted_readBatch texts c paths
  obtain ⟨hsummary, hregistry⟩ :
      SameOutcome batch (paths.foldl (reader.readNext texts) (.empty, c)) :=
    reader.sameOutcome_readInTurn texts c paths
  have hfresh : batch.1.types = (c.registry.fresh own).length := by
    rw [hsummary]
    exact reader.types_foldl_readNext texts paths c
  have hsize : batch.2.registry.size = c.registry.size + batch.1.types := by
    have hlist : batch.2.registry.toList = c.registry.toList ++ c.registry.fresh own := by
      rw [hregistry, reader.registry_foldl_readNext texts paths, Registry.toList_foldl_append]
    rw [hfresh]
    simpa [Registry.toList, Registry.size] using congrArg List.length hlist
  refine ⟨hcounted.attempted, hcounted.succeeded, hcounted.failed, hsize, hcounted.types, ?_,
    fun calls => reader.balanced_foldl_count calls rfl⟩
  have htypes : counters.types = c.counters.types +
      (if reader.readsSideBySide then own.length else batch.1.types) := hcounted.types
  rw [htypes]
  cases hmode : reader.readsSideBySide with
  | false => simp
  | true =>
      rw [if_pos rfl, Nat.add_left_cancel_iff, hfresh, ← Registry.fresh_eq_self_iff]
      -- Fresh records are a part of the records, so as many are all of them.
      exact ⟨fun hlength _ => (Registry.fresh_sublist _ own).eq_of_length hlength.symm,
        fun heq => congrArg List.length (heq rfl).symm⟩

/-- Two files that declare one class: read side by side, the counters count it
twice and the summary once. -/
theorem counts_more_than_registered :
    let text := "class A \x7b \x7d".toUTF8.toList
    let tree := FileTree.directory [("a.java", .file text), ("b.java", .file text)]
    let reader := Reader.java { Settings.usual with parallel := true }
    let batch := reader.readFiles tree .empty ["a.java", "b.java"]
    batch.1.types = 1 ∧ batch.2.registry.size = 1 ∧ batch.2.counters.types = 2 := by
  decide +kernel

end Reader

end JavaOutline
