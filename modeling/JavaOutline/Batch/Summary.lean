import JavaOutline.Batch.Duration
import JavaOutline.Batch.Failure

/-!
# JavaOutline.Batch.Summary

What has been read: for a file, for a batch of files, and for everything
that a reader has read so far.
-/

namespace JavaOutline

/-- A part of a whole as a fraction, 0 for a part of nothing. -/
def fraction (part whole : Nat) : Float :=
  if whole = 0 then 0 else Float.ofNat part / Float.ofNat whole

/-! ## Files -/

/-- What has been read from a file. -/
structure FileSummary where
  path : String
  /-- The full names of the types registered from the file, in order. -/
  types : List String
  time : Duration
  lines : Nat
  bytes : Nat
  deriving DecidableEq, Repr

/-! ## Batches -/

/-- What has been read from a batch of files. -/
structure BatchSummary where
  /-- The files that could be read, in order. -/
  files : List FileSummary
  /-- The number of types registered from all files. -/
  types : Nat
  time : Duration
  /-- The paths that could not be read, each with the reason, in order. -/
  failed : List (String × String)
  deriving DecidableEq, Repr

namespace BatchSummary

/-- No file has been read. -/
def empty : BatchSummary := ⟨[], 0, .zero, []⟩

/-- Add the outcome of one more path. -/
def record (b : BatchSummary) (path : String) : Except ReadFailure FileSummary → BatchSummary
  | .ok file =>
    { b with
      files := b.files ++ [file]
      types := b.types + file.types.length
      time := b.time.add file.time }
  | .error failure => { b with failed := b.failed ++ [(path, failure.message)] }

/-- The number of paths, whether they could be read or not. -/
def paths (b : BatchSummary) : Nat := b.files.length + b.failed.length

/-- Each outcome counts for one path. -/
theorem paths_record (b : BatchSummary) (path : String) (outcome : Except ReadFailure FileSummary) :
    (b.record path outcome).paths = b.paths + 1 := by
  cases outcome <;> simp only [record, paths, List.length_append, List.length_singleton] <;> omega

/-- The fraction of the paths that could be read. -/
def successRate (b : BatchSummary) : Float := fraction b.files.length b.paths

/-- The mean time for a file that could be read. -/
def averageTime (b : BatchSummary) : Duration := b.time.share b.files.length

end BatchSummary

/-! ## Counters -/

/-- What a reader has read so far. -/
structure Counters where
  attempted : Nat
  succeeded : Nat
  failed : Nat
  time : Duration
  /-- The number of types found in the files that could be read. -/
  types : Nat
  deriving DecidableEq, Repr

namespace Counters

/-- Nothing has been read. -/
def zero : Counters := ⟨0, 0, 0, .zero, 0⟩

/-- The counters of two readers together. -/
def add (a b : Counters) : Counters where
  attempted := a.attempted + b.attempted
  succeeded := a.succeeded + b.succeeded
  failed := a.failed + b.failed
  time := a.time.add b.time
  types := a.types + b.types

/-- The counters after one more file. -/
def count (c : Counters) : Except ReadFailure FileSummary → Counters
  | .ok file => c.add ⟨1, 1, 0, file.time, file.types.length⟩
  | .error _ => c.add ⟨1, 0, 1, .zero, 0⟩

/-- The fraction of the files that could be read. -/
def successRate (c : Counters) : Float := fraction c.succeeded c.attempted

/-- The greatest number of files over which a mean is taken. -/
def maxShares : Nat := 0xFFFFFFFF

/-- The mean time for a file that could be read; none for more files than
a mean is taken over. -/
def averageTime (c : Counters) : Duration :=
  if c.succeeded ≤ maxShares then c.time.share c.succeeded else .zero

end Counters

end JavaOutline
