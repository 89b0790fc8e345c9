import JavaOutline.Json.Summaries
import JavaOutline.Proofs.Documents

/-!
# JavaOutline.Proofs.Trimming

Settings and summaries are read back from their JSON form, with every time in
them trimmed to whole microseconds.

1. a time is written as a count of microseconds, which is cut off at the greatest
   count that can be read, so `Duration.trimmed` is what is left of it;
2. the times of a value stand at fixed places: `times` lists them, and `mapTimes`
   changes each of them and nothing else;
3. the counts of a value must be such that they can be written, as all numbers of
   64 bits are (`Fits`); nothing is asked of the times.

`ReadBack` is what holds of one value.  It follows from reading alone
(`ReadBack.of_reads`), since trimming twice is trimming once.
`summaries_readBack` puts the four kinds of values together.
-/

namespace JavaOutline

open Json

/-! ## Times -/

namespace Duration

/-- What is left of a time that is written: its whole microseconds, up to the
greatest count. -/
def trimmed (d : Duration) : Duration := ofMicroseconds (min d.microseconds maxCount)

/-- Whether a time is written exactly: it is made of whole microseconds, and their
number is not above the greatest count. -/
def IsExact (d : Duration) : Prop := 1000 ∣ d.nanoseconds ∧ d.microseconds ≤ maxCount

@[simp] theorem ofJson?_toJson (d : Duration) : ofJson? d.toJson = some d.trimmed := by
  rw [toJson, ofJson?, count?_count (Nat.min_le_right ..), Option.map_some, trimmed]

/-- Trimming twice is trimming once. -/
@[simp] theorem trimmed_trimmed (d : Duration) : d.trimmed.trimmed = d.trimmed := by
  rw [trimmed, trimmed, microseconds_ofMicroseconds, Nat.min_assoc, Nat.min_self]

/-- A time is left as it is exactly if it is written exactly. -/
theorem trimmed_eq_iff {d : Duration} : d.trimmed = d ↔ d.IsExact := by
  obtain ⟨n⟩ := d
  simp only [trimmed, ofMicroseconds, microseconds, IsExact, mk.injEq]
  omega

end Duration

/-! ## Values with times -/

/-- What a written value is read back as: itself with its times trimmed.  This is
read back as it is, and it is the value that was written exactly if all times of
the value are written exactly. -/
structure ReadBack {α : Type} (toJson : α → Json) (ofJson? : Json → Option α)
    (mapTimes : (Duration → Duration) → α → α) (times : α → List Duration) (a : α) : Prop where
  reads : ofJson? (toJson a) = some (mapTimes Duration.trimmed a)
  again : ofJson? (toJson (mapTimes Duration.trimmed a)) = some (mapTimes Duration.trimmed a)
  kept_iff : ofJson? (toJson a) = some a ↔ ∀ d ∈ times a, d.IsExact

/-- Reading trims the times of every value whose counts fit, so the trimmed value
is read back as it is. -/
theorem ReadBack.of_reads {α : Type} {toJson : α → Json} {ofJson? : Json → Option α}
    {mapTimes : (Duration → Duration) → α → α} {times : α → List Duration} {Fits : α → Prop}
    (hmap : ∀ f a, mapTimes f a = a ↔ ∀ d ∈ times a, f d = d)
    (htimes : ∀ f a, times (mapTimes f a) = (times a).map f)
    (hfits : ∀ f a, Fits a → Fits (mapTimes f a))
    (hreads : ∀ a, Fits a → ofJson? (toJson a) = some (mapTimes Duration.trimmed a))
    {a : α} (h : Fits a) : ReadBack toJson ofJson? mapTimes times a where
  reads := hreads a h
  again := by
    have hkept : mapTimes Duration.trimmed (mapTimes Duration.trimmed a) =
        mapTimes Duration.trimmed a := by
      rw [hmap, htimes]
      simp
    rw [hreads _ (hfits _ a h), hkept]
  kept_iff := by
    rw [hreads a h, Option.some.injEq, hmap]
    simp only [Duration.trimmed_eq_iff]

/-! ## Settings -/

namespace Settings

/-- Whether all counts of settings can be written. -/
def Fits (s : Settings) : Prop := s.sizeLimit ≤ maxCount ∧ ∀ n ∈ s.workers, n ≤ maxCount

/-- Settings hold no times. -/
def times (_ : Settings) : List Duration := []

/-- Settings hold no times that could change. -/
def mapTimes (_ : Duration → Duration) (s : Settings) : Settings := s

/-- Settings are read back as they are. -/
theorem ofJson?_toJson {s : Settings} (h : s.Fits) : ofJson? s.toJson = some s := by
  have hparts : s.toJson.parts?
      ["max_file_size", "harvest_locals", "parallel", "parallel_workers"] =
      some [.count s.sizeLimit, .boolean s.wantsLocals, .boolean s.parallel,
        Json.ofOption .count s.workers] :=
    (parts?_ofFields _ _).trans (fields?_ofFields (by simp) (List.Subset.refl _))
  have hworkers : (Json.ofOption .count s.workers).optional? Json.count? = some s.workers :=
    optional?_ofOption (fun _ h => nomatch h) fun n hn => count?_count (h.2 n hn)
  rw [ofJson?, hparts]
  simp [count?_count h.1, hworkers]

theorem Fits.readBack {s : Settings} (h : s.Fits) : ReadBack toJson ofJson? mapTimes times s :=
  .of_reads (by simp [times]) (by simp [times]) (fun _ _ h => h)
    (fun _ h => ofJson?_toJson h) h

end Settings

/-! ## Counters -/

namespace Counters

/-- Whether all counts of counters can be written. -/
structure Fits (c : Counters) : Prop where
  attempted : c.attempted ≤ maxCount
  succeeded : c.succeeded ≤ maxCount
  failed : c.failed ≤ maxCount
  types : c.types ≤ maxCount

/-- The times of counters. -/
def times (c : Counters) : List Duration := [c.time]

/-- Counters with other times. -/
def mapTimes (f : Duration → Duration) (c : Counters) : Counters := { c with time := f c.time }

theorem mapTimes_eq_iff (f : Duration → Duration) (c : Counters) :
    c.mapTimes f = c ↔ ∀ d ∈ c.times, f d = d := by
  cases c
  simp [mapTimes, times]

/-- Counters are read back with their time trimmed. -/
theorem ofJson?_toJson {c : Counters} (h : c.Fits) :
    ofJson? c.toJson = some (c.mapTimes Duration.trimmed) := by
  have hparts : c.toJson.parts? ["files_attempted", "files_succeeded", "files_failed",
        "total_parse_time", "total_classes"] =
      some [.count c.attempted, .count c.succeeded, .count c.failed, c.time.toJson,
        .count c.types] :=
    (parts?_ofFields _ _).trans (fields?_ofFields (by simp) (List.Subset.refl _))
  rw [ofJson?, hparts]
  simp [count?_count h.attempted, count?_count h.succeeded, count?_count h.failed,
    count?_count h.types, mapTimes]

theorem Fits.readBack {c : Counters} (h : c.Fits) : ReadBack toJson ofJson? mapTimes times c :=
  .of_reads mapTimes_eq_iff (fun _ _ => rfl)
    (fun _ _ h => ⟨h.attempted, h.succeeded, h.failed, h.types⟩) (fun _ h => ofJson?_toJson h) h

end Counters

/-! ## Files -/

namespace FileSummary

/-- Whether all counts of a file can be written. -/
structure Fits (f : FileSummary) : Prop where
  lines : f.lines ≤ maxCount
  bytes : f.bytes ≤ maxCount

/-- The times of a file. -/
def times (f : FileSummary) : List Duration := [f.time]

/-- A file with other times. -/
def mapTimes (g : Duration → Duration) (f : FileSummary) : FileSummary :=
  { f with time := g f.time }

theorem mapTimes_eq_iff (g : Duration → Duration) (f : FileSummary) :
    f.mapTimes g = f ↔ ∀ d ∈ f.times, g d = d := by
  cases f
  simp [mapTimes, times]

theorem fits_mapTimes {f : FileSummary} (h : f.Fits) (g : Duration → Duration) :
    (f.mapTimes g).Fits := ⟨h.lines, h.bytes⟩

/-- A file is read back with its time trimmed. -/
theorem ofJson?_toJson {f : FileSummary} (h : f.Fits) :
    ofJson? f.toJson = some (f.mapTimes Duration.trimmed) := by
  have hparts : f.toJson.parts? ["file_path", "classes", "parse_time", "line_count",
        "byte_count"] =
      some [.string f.path, Json.ofList .string f.types, f.time.toJson, .count f.lines,
        .count f.bytes] :=
    (parts?_ofFields _ _).trans (fields?_ofFields (by simp) (List.Subset.refl _))
  rw [ofJson?, hparts]
  simp [count?_count h.lines, count?_count h.bytes, mapTimes]

theorem Fits.readBack {f : FileSummary} (h : f.Fits) : ReadBack toJson ofJson? mapTimes times f :=
  .of_reads mapTimes_eq_iff (fun _ _ => rfl) (fun g _ h => fits_mapTimes h g)
    (fun _ h => ofJson?_toJson h) h

end FileSummary

/-! ## Batches -/

namespace BatchSummary

/-- Whether all counts of a batch and of its files can be written. -/
structure Fits (b : BatchSummary) : Prop where
  types : b.types ≤ maxCount
  files : ∀ f ∈ b.files, f.Fits

/-- The times of a batch: its own, and those of its files. -/
def times (b : BatchSummary) : List Duration := b.time :: b.files.flatMap FileSummary.times

/-- A batch with other times, also in its files. -/
def mapTimes (g : Duration → Duration) (b : BatchSummary) : BatchSummary :=
  { b with files := b.files.map (·.mapTimes g), time := g b.time }

theorem mapTimes_eq_iff (g : Duration → Duration) (b : BatchSummary) :
    b.mapTimes g = b ↔ ∀ d ∈ b.times, g d = d := by
  have hfiles : b.files.map (·.mapTimes g) = b.files ↔ ∀ f ∈ b.files, f.mapTimes g = f := by
    simpa using List.map_inj_left (l := b.files) (f := (·.mapTimes g)) (g := id)
  obtain ⟨files, types, time, failed⟩ := b
  simp only [mapTimes, mk.injEq, hfiles, times, FileSummary.mapTimes_eq_iff]
  simp only [List.forall_mem_cons, List.mem_flatMap]
  grind

theorem times_mapTimes (g : Duration → Duration) (b : BatchSummary) :
    (b.mapTimes g).times = b.times.map g := by
  simp [times, mapTimes, List.flatMap_map, List.map_flatMap, FileSummary.times,
    FileSummary.mapTimes]

theorem fits_mapTimes {b : BatchSummary} (h : b.Fits) (g : Duration → Duration) :
    (b.mapTimes g).Fits where
  types := h.types
  files f hf := by
    obtain ⟨file, hfile, rfl⟩ := List.mem_map.1 hf
    exact FileSummary.fits_mapTimes (h.files file hfile) g

@[simp] theorem failureOfJson?_failureToJson (failure : String × String) :
    failureOfJson? (failureToJson failure) = some failure := rfl

/-- A batch is read back with its times trimmed, also those of its files. -/
theorem ofJson?_toJson {b : BatchSummary} (h : b.Fits) :
    ofJson? b.toJson = some (b.mapTimes Duration.trimmed) := by
  have hparts : b.toJson.parts? ["files", "total_classes", "total_parse_time", "failed_files"] =
      some [Json.ofList FileSummary.toJson b.files, .count b.types, b.time.toJson,
        Json.ofList failureToJson b.failed] :=
    (parts?_ofFields _ _).trans (fields?_ofFields (by simp) (List.Subset.refl _))
  have hfiles : (Json.ofList FileSummary.toJson b.files).list? FileSummary.ofJson? =
      some (b.files.map (·.mapTimes Duration.trimmed)) :=
    list?_ofList_map fun f hf => FileSummary.ofJson?_toJson (h.files f hf)
  have hfailed : (Json.ofList failureToJson b.failed).list? failureOfJson? = some b.failed :=
    list?_ofList fun failure _ => failureOfJson?_failureToJson failure
  rw [ofJson?, hparts]
  simp [count?_count h.types, hfiles, hfailed, mapTimes]

theorem Fits.readBack {b : BatchSummary} (h : b.Fits) : ReadBack toJson ofJson? mapTimes times b :=
  .of_reads mapTimes_eq_iff times_mapTimes (fun g _ h => fits_mapTimes h g)
    (fun _ h => ofJson?_toJson h) h

end BatchSummary

/-! ## All of them -/

/-- **Settings and summaries are read back up to whole microseconds.**  Settings,
counters, files and batches whose counts can be written are read back from their
JSON form with every time trimmed, also in the files of a batch; a second time
nothing changes; and the value is kept exactly if its times are whole microseconds
that can be written. -/
theorem summaries_readBack {s : Settings} {c : Counters} {f : FileSummary} {b : BatchSummary}
    (hs : s.Fits) (hc : c.Fits) (hf : f.Fits) (hb : b.Fits) :
    ReadBack Settings.toJson Settings.ofJson? Settings.mapTimes Settings.times s ∧
      ReadBack Counters.toJson Counters.ofJson? Counters.mapTimes Counters.times c ∧
      ReadBack FileSummary.toJson FileSummary.ofJson? FileSummary.mapTimes FileSummary.times f ∧
      ReadBack BatchSummary.toJson BatchSummary.ofJson? BatchSummary.mapTimes
        BatchSummary.times b :=
  ⟨hs.readBack, hc.readBack, hf.readBack, hb.readBack⟩

/-- A file that was read in two and a half microseconds. -/
def quickFile : FileSummary := ⟨"a/B.java", ["a.B"], ⟨2500⟩, 3, 40⟩

/-- A batch with this file that took more microseconds than can be written. -/
def longBatch : BatchSummary :=
  ⟨[quickFile], 1, ⟨(maxCount + 7) * 1000 + 999⟩, [("C.java", "Registry error: full")]⟩

/-- The time of the file loses its half microsecond, that of the batch is the greatest
that can be written, and the rest is as it was. -/
theorem summaries_readBack_long :
    ({ Settings.usual with workers := some 4 } : Settings).Fits ∧
      (Counters.zero.count (.ok quickFile)).Fits ∧ quickFile.Fits ∧ longBatch.Fits ∧
      Settings.ofJson? { Settings.usual with workers := some 4 : Settings }.toJson =
        some { Settings.usual with workers := some 4 } ∧
      Counters.ofJson? (Counters.zero.count (.ok quickFile)).toJson = some ⟨1, 1, 0, ⟨2000⟩, 1⟩ ∧
      BatchSummary.ofJson? longBatch.toJson =
        some { longBatch with
          files := [{ quickFile with time := ⟨2000⟩ }], time := ⟨maxCount * 1000⟩ } ∧
      BatchSummary.ofJson? longBatch.toJson ≠ some longBatch := by
  have hs : ({ Settings.usual with workers := some 4 } : Settings).Fits := by
    simp [Settings.Fits, Settings.usual, maxCount]
  have hc : (Counters.zero.count (.ok quickFile)).Fits := by constructor <;> decide
  have hf : quickFile.Fits := by constructor <;> decide
  have hb : longBatch.Fits := ⟨by decide, by simpa [longBatch] using hf⟩
  obtain ⟨settings, counters, _, batch⟩ := summaries_readBack hs hc hf hb
  refine ⟨hs, hc, hf, hb, settings.reads, counters.reads, batch.reads, fun hkept => ?_⟩
  have hexact := batch.kept_iff.1 hkept longBatch.time List.mem_cons_self
  exact absurd hexact.2 (by decide)

end JavaOutline
