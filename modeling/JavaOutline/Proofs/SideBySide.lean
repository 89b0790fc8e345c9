import JavaOutline.Batch.Reader
import JavaOutline.Proofs.Registering
import JavaOutline.Proofs.Registration

/-!
# JavaOutline.Proofs.SideBySide

Files read side by side come to what the same files come to when they are
read one after the other.

A file that is read into a registry of its own leaves there the records
that are fresh to the empty registry; merging these takes what reading the
file into the shared registry would have taken
(`Registry.merge_readText_empty`, `mergeNext_readInto`).  The batches then
agree file by file (`foldl_mergeNext`).
-/

namespace JavaOutline

/-- Merging the records of a text that was read on its own is reading the
text, and the names that were not skipped are those that are reported. -/
theorem Registry.merge_readText_empty (r : Registry) (withLocals : Bool) (text : String) :
    (r.merge (Registry.empty.readText withLocals text).1).1 = (r.readText withLocals text).1 ∧
      ((Registry.empty.readText withLocals text).2.filter fun name =>
        !(r.merge (Registry.empty.readText withLocals text).1).2.contains name) =
          (r.readText withLocals text).2 := by
  have hown : (Registry.empty.readText withLocals text).1.toList =
      Registry.empty.fresh (outline withLocals text) := by
    simp [readText_eq]
  have hnames : (Registry.empty.readText withLocals text).2 =
      (Registry.empty.fresh (outline withLocals text)).map TypeRecord.fullName := by
    simp [readText_eq]
  obtain ⟨hregistry, haccepted⟩ := registerAll_fresh r (outline withLocals text)
  have hkept := filter_skipped_registerAll (r := r) (nodup_fresh empty (outline withLocals text))
  constructor
  · rw [merge, hown, readText_eq, hregistry]
  · rw [merge, hown, hnames, hkept, readText_eq, haccepted]

namespace Reader

/-- The same settings with the files of a batch read side by side or not. -/
def javaWith (settings : Settings) (parallel : Bool) : Reader :=
  .java { settings with parallel }

/-- Two batches have come to the same files and records; the counters of
the reader may differ. -/
def SameOutcome (a b : BatchSummary × Collection) : Prop :=
  a.1 = b.1 ∧ a.2.registry = b.2.registry

/-- Merging a file that was read on its own does what reading it does. -/
theorem mergeNext_readInto (reader : Reader) (texts : String → Except ReadFailure String)
    {a b : BatchSummary × Collection} (h : SameOutcome a b) (path : String) :
    SameOutcome (mergeNext a (path, reader.readInto texts path .empty))
      (reader.readNext texts b path) := by
  obtain ⟨summary, registry, counters⟩ := a
  obtain ⟨summary', registry', counters'⟩ := b
  obtain ⟨hsummary, hregistry⟩ := h
  dsimp only at hsummary hregistry
  subst hsummary hregistry
  cases htext : texts path with
  | error failure =>
      simp only [readInto, readNext, attempt, mergeNext, htext, Except.map]
      exact ⟨rfl, rfl⟩
  | ok text =>
      obtain ⟨hmerged, hkept⟩ :=
        registry.merge_readText_empty reader.settings.wantsLocals text
      simp only [readInto, readNext, attempt, mergeNext, readText, htext, Except.map]
      constructor
      · rw [hkept]
      · exact hmerged

/-- Whole batches agree if they agree so far. -/
theorem foldl_mergeNext (reader : Reader) (texts : String → Except ReadFailure String)
    (paths : List String) {a b : BatchSummary × Collection} (h : SameOutcome a b) :
    SameOutcome
      ((paths.map fun path => (path, reader.readInto texts path .empty)).foldl mergeNext a)
      (paths.foldl (reader.readNext texts) b) := by
  induction paths generalizing a b with
  | nil => exact h
  | cons path paths ih =>
      rw [List.map_cons, List.foldl_cons, List.foldl_cons]
      exact ih (mergeNext_readInto reader texts h path)

/-- **Reading side by side changes nothing.**  Whatever text each path
leads to, whatever has been read before and whatever the settings, a batch
read side by side and the same batch read one file after the other come to
the same files in order, the same number of types, the same failures and
the same registry. -/
theorem readBatch_sideBySide_eq_inTurn (settings : Settings)
    (texts : String → Except ReadFailure String) (c : Collection) (paths : List String) :
    let side := (javaWith settings true).readBatch texts c paths
    let turn := (javaWith settings false).readBatch texts c paths
    side.1.files = turn.1.files ∧ side.1.types = turn.1.types ∧
      side.1.failed = turn.1.failed ∧ side.2.registry = turn.2.registry := by
  intro side turn
  have hside : side = (javaWith settings true).readSideBySide texts c paths := rfl
  have hturn : turn = (javaWith settings false).readInTurn texts c paths := rfl
  -- The two readers differ in `parallel` alone, which no single file depends on.
  have hreader : (javaWith settings false).readNext texts =
      (javaWith settings true).readNext texts := rfl
  have hsame : SameOutcome side turn := by
    rw [hside, hturn, readSideBySide, readInTurn, hreader]
    exact foldl_mergeNext _ texts paths ⟨rfl, rfl⟩
  obtain ⟨hsummary, hregistry⟩ := hsame
  rw [hsummary]
  exact ⟨rfl, rfl, rfl, hregistry⟩

end Reader

end JavaOutline
