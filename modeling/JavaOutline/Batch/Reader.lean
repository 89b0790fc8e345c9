import JavaOutline.Batch.Settings
import JavaOutline.Batch.Summary
import JavaOutline.Files.System
import JavaOutline.Session
import JavaOutline.Text.Utf8

/-!
# JavaOutline.Batch.Reader

Reading files into a registry.  A file that cannot be read leaves the
registry as it was, and the batch goes on.

The files of a batch are read one after the other into one registry, or
each into a registry of its own; these are then merged in the order of the
paths, so of two types with one name the same is kept.  Reading side by side
needs workers, and a machine may refuse them; then nothing is read.
-/

namespace JavaOutline

/-- What reads files: the files that it finds in directories, and how it
reads them.  Times are left to whoever measures them. -/
structure Reader where
  /-- The language of the files. -/
  language : String
  /-- The extensions of the files, with their dots. -/
  extensions : List String
  settings : Settings
  /-- Whether the files of a batch may be read side by side. -/
  sideBySide : Bool
  deriving DecidableEq, Repr

/-- What a reader has come to. -/
structure Collection where
  registry : Registry
  counters : Counters

/-- Nothing has been read. -/
def Collection.empty : Collection := ⟨.empty, .zero⟩

namespace Reader

/-- The reader of Java files. -/
def java (settings : Settings) : Reader := ⟨"java", [".java"], settings, true⟩

/-- Whether a path has one of the extensions. -/
def accepts (reader : Reader) (path : String) : Bool := Path.hasExtension reader.extensions path

/-! ## Files -/

/-- Read a text as that of a path. -/
def readText (reader : Reader) (path text : String) (r : Registry) : FileSummary × Registry :=
  let (registry, types) := r.readText reader.settings.wantsLocals text
  (⟨path, types, .zero, Text.lineCount text.toList, text.utf8ByteSize⟩, registry)

/-- The text of a file that is not too large.  The size is looked at first,
also that of a directory. -/
def textOf (reader : Reader) (files : FileSystem) (path : String) : Except ReadFailure String :=
  match files.find path with
  | .error failure => .error (.unreadable path failure.message)
  | .ok node =>
    let size := files.reportedSize path node
    if reader.settings.sizeLimit < size then .error (.tooLarge path size)
    else
      match node with
      | .file bytes => .ok (String.ofList (Text.ofUtf8 bytes))
      | .directory _ => .error (.unreadable path PathFailure.isDirectory.message)

/-- Read a file into a registry; `texts` says what text a path leads to. -/
def readInto (reader : Reader) (texts : String → Except ReadFailure String) (path : String)
    (r : Registry) : Except ReadFailure (FileSummary × Registry) :=
  (texts path).map fun text => reader.readText path text r

/-- Read a file, and count it. -/
def attempt (reader : Reader) (texts : String → Except ReadFailure String) (c : Collection)
    (path : String) : Except ReadFailure FileSummary × Collection :=
  match reader.readInto texts path c.registry with
  | .ok (file, registry) => (.ok file, ⟨registry, c.counters.count (.ok file)⟩)
  | .error failure => (.error failure, { c with counters := c.counters.count (.error failure) })

/-- Read a file of a file system. -/
def readOne (reader : Reader) (files : FileSystem) (c : Collection) (path : String) :
    Except ReadFailure FileSummary × Collection :=
  reader.attempt (reader.textOf files) c path

/-! ## Batches -/

/-- Read one more file of a batch. -/
def readNext (reader : Reader) (texts : String → Except ReadFailure String)
    (state : BatchSummary × Collection) (path : String) : BatchSummary × Collection :=
  let (outcome, c) := reader.attempt texts state.2 path
  (state.1.record path outcome, c)

/-- Read files one after the other. -/
def readInTurn (reader : Reader) (texts : String → Except ReadFailure String) (c : Collection)
    (paths : List String) : BatchSummary × Collection :=
  paths.foldl (reader.readNext texts) (.empty, c)

/-- Merge one more file that has been read into a registry of its own.
The types whose names were taken are no types of the file. -/
def mergeNext (state : BatchSummary × Collection)
    (read : String × Except ReadFailure (FileSummary × Registry)) : BatchSummary × Collection :=
  let (b, c) := state
  match read.2 with
  | .error failure =>
    (b.record read.1 (.error failure), { c with counters := c.counters.count (.error failure) })
  | .ok (file, own) =>
    let (registry, skipped) := c.registry.merge own
    let kept := { file with types := file.types.filter fun name => !skipped.contains name }
    (b.record read.1 (.ok kept), ⟨registry, c.counters.count (.ok file)⟩)

/-- Read files side by side, each into a registry of its own, and merge
these in the order of the paths. -/
def readSideBySide (reader : Reader) (texts : String → Except ReadFailure String) (c : Collection)
    (paths : List String) : BatchSummary × Collection :=
  (paths.map fun path => (path, reader.readInto texts path .empty)).foldl mergeNext (.empty, c)

/-- Whether the files of a batch are read side by side. -/
def readsSideBySide (reader : Reader) : Bool := reader.sideBySide && reader.settings.parallel

/-- Read a batch of files as the settings say, the workers being there that it
takes (`readBatchOn`). -/
def readBatch (reader : Reader) (texts : String → Except ReadFailure String) (c : Collection)
    (paths : List String) : BatchSummary × Collection :=
  if reader.readsSideBySide then reader.readSideBySide texts c paths
  else reader.readInTurn texts c paths

/-- Read a batch of files of a file system. -/
def readFiles (reader : Reader) (files : FileSystem) (c : Collection) (paths : List String) :
    BatchSummary × Collection :=
  reader.readBatch (reader.textOf files) c paths

/-! ## Directories -/

/-- The files that the reader finds in a directory. -/
def discover (reader : Reader) (files : FileSystem) (path : String) : List String :=
  files.discover reader.extensions path

/-- Read the files found in a directory. -/
def readDirectory (reader : Reader) (files : FileSystem) (c : Collection) (path : String) :
    BatchSummary × Collection :=
  reader.readFiles files c (reader.discover files path)

/-- The files that a path stands for: those found in a directory, or a file
whatever its extension. -/
def filesAt (reader : Reader) (files : FileSystem) (path : String) : List String :=
  if files.isDirectory path then reader.discover files path else [path]

/-- Read the files that a path stands for. -/
def readPath (reader : Reader) (files : FileSystem) (c : Collection) (path : String) :
    BatchSummary × Collection :=
  reader.readFiles files c (reader.filesAt files path)

end Reader

/-! ## Workers -/

/-- What a machine answers when it is asked for workers, as many as are
wanted or one for each processor: that they are there, or why not. -/
abbrev Workers := Option Nat → Except String Unit

namespace Reader

/-- Ask for the workers that the files of a batch are read by.  Files that
are read one after the other need none. -/
def engage (reader : Reader) (workers : Workers) : Except ReadFailure Unit :=
  if reader.readsSideBySide then
    (workers reader.settings.workers).mapError fun cause =>
      .unregistered ("Failed to create thread pool: " ++ cause)
  else .ok ()

/-- Read a batch of files on a machine, if it has the workers. -/
def readBatchOn (reader : Reader) (workers : Workers) (texts : String → Except ReadFailure String)
    (c : Collection) (paths : List String) : Except ReadFailure BatchSummary × Collection :=
  match reader.engage workers with
  | .error failure => (.error failure, c)
  | .ok () =>
    let (batch, c) := reader.readBatch texts c paths
    (.ok batch, c)

/-- Read the files that a path stands for on a machine, if it has the
workers. -/
def readPathOn (reader : Reader) (workers : Workers) (files : FileSystem) (c : Collection)
    (path : String) : Except ReadFailure BatchSummary × Collection :=
  reader.readBatchOn workers (reader.textOf files) c (reader.filesAt files path)

end Reader

end JavaOutline
