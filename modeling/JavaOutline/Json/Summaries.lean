import JavaOutline.Batch.Settings
import JavaOutline.Batch.Summary
import JavaOutline.Json

/-!
# JavaOutline.Json.Summaries

The JSON forms of settings and summaries.  Times are whole microseconds,
and a time of more than can be read back is written as the greatest that
can.  Each value may also be given as an array of its fields.
-/

namespace JavaOutline

open Json

/-! ## Times -/

/-- The JSON form of a time. -/
def Duration.toJson (d : Duration) : Json := .count (min d.microseconds maxCount)

/-- Read a time. -/
def Duration.ofJson? (j : Json) : Option Duration := j.count?.map Duration.ofMicroseconds

/-! ## Settings -/

namespace Settings

/-- The JSON form of settings. -/
def toJson (s : Settings) : Json :=
  .ofFields [("max_file_size", .count s.sizeLimit), ("harvest_locals", .boolean s.wantsLocals),
    ("parallel", .boolean s.parallel), ("parallel_workers", Json.ofOption .count s.workers)]

/-- Read settings. -/
def ofJson? (j : Json) : Option Settings := do
  match ← j.parts? ["max_file_size", "harvest_locals", "parallel", "parallel_workers"] with
  | [sizeLimit, wantsLocals, parallel, workers] =>
    some ⟨← sizeLimit.count?, ← wantsLocals.boolean?, ← parallel.boolean?,
      ← workers.optional? Json.count?⟩
  | _ => none

end Settings

/-! ## Counters -/

namespace Counters

/-- The JSON form of counters. -/
def toJson (c : Counters) : Json :=
  .ofFields [("files_attempted", .count c.attempted), ("files_succeeded", .count c.succeeded),
    ("files_failed", .count c.failed), ("total_parse_time", c.time.toJson),
    ("total_classes", .count c.types)]

/-- Read counters. -/
def ofJson? (j : Json) : Option Counters := do
  match ← j.parts? ["files_attempted", "files_succeeded", "files_failed", "total_parse_time",
      "total_classes"] with
  | [attempted, succeeded, failed, time, types] =>
    some ⟨← attempted.count?, ← succeeded.count?, ← failed.count?, ← Duration.ofJson? time,
      ← types.count?⟩
  | _ => none

end Counters

/-! ## Files and batches -/

namespace FileSummary

/-- The JSON form of a file. -/
def toJson (f : FileSummary) : Json :=
  .ofFields [("file_path", .string f.path), ("classes", Json.ofList .string f.types),
    ("parse_time", f.time.toJson), ("line_count", .count f.lines), ("byte_count", .count f.bytes)]

/-- Read a file. -/
def ofJson? (j : Json) : Option FileSummary := do
  match ← j.parts? ["file_path", "classes", "parse_time", "line_count", "byte_count"] with
  | [path, types, time, lines, bytes] =>
    some ⟨← path.string?, ← types.list? Json.string?, ← Duration.ofJson? time, ← lines.count?,
      ← bytes.count?⟩
  | _ => none

end FileSummary

namespace BatchSummary

/-- The JSON form of a path that could not be read, and the reason. -/
def failureToJson (failure : String × String) : Json :=
  .array [.string failure.1, .string failure.2]

/-- Read a path that could not be read, and the reason. -/
def failureOfJson? : Json → Option (String × String)
  | .array [path, reason] => do some (← path.string?, ← reason.string?)
  | _ => none

/-- The JSON form of a batch. -/
def toJson (b : BatchSummary) : Json :=
  .ofFields [("files", Json.ofList FileSummary.toJson b.files), ("total_classes", .count b.types),
    ("total_parse_time", b.time.toJson), ("failed_files", Json.ofList failureToJson b.failed)]

/-- Read a batch. -/
def ofJson? (j : Json) : Option BatchSummary := do
  match ← j.parts? ["files", "total_classes", "total_parse_time", "failed_files"] with
  | [files, types, time, failed] =>
    some ⟨← files.list? FileSummary.ofJson?, ← types.count?, ← Duration.ofJson? time,
      ← failed.list? failureOfJson?⟩
  | _ => none

end BatchSummary

end JavaOutline
