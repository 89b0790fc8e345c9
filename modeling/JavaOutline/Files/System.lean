import JavaOutline.Files.Tree

/-!
# JavaOutline.Files.System

The files of a machine as they are seen from a working directory.  Paths are
followed from there, step by step, or from the outermost directory if they
begin with a slash.
-/

namespace JavaOutline

/-- Files, as they are seen from a working directory. -/
structure FileSystem where
  /-- The working directory. -/
  working : FileTree
  /-- The directories around it, innermost first. -/
  outer : List FileTree
  /-- The size that is reported of a directory, by its path. -/
  directorySize : String → Nat

namespace FileSystem

/-- A tree with nothing around it, whose directories have no size. -/
def ofTree (tree : FileTree) : FileSystem := ⟨tree, [.empty], fun _ => 0⟩

instance : Coe FileTree FileSystem := ⟨ofTree⟩

/-- The outermost directory. -/
def top (files : FileSystem) : FileTree := files.outer.getLastD files.working

/-- What a path leads to. -/
def find (files : FileSystem) (path : String) : Except PathFailure FileTree :=
  if path = "" then .error .missing
  else if Path.isAbsolute path then files.top.follow [] (Path.components path)
  else files.working.follow files.outer (Path.components path)

/-- Whether a path leads to a directory. -/
def isDirectory (files : FileSystem) (path : String) : Bool :=
  match files.find path with
  | .ok (.directory _) => true
  | _ => false

/-- The size that is reported of what a path leads to. -/
def reportedSize (files : FileSystem) (path : String) : FileTree → Nat
  | .file bytes => bytes.length
  | .directory _ => files.directorySize path

/-- The files with one of some extensions in the directory that a path
leads to.  In what is no directory there are none. -/
def discover (files : FileSystem) (extensions : List String) (path : String) : List String :=
  match files.find path with
  | .ok (.directory entries) => FileTree.found extensions path (.directory entries)
  | _ => []

end FileSystem

end JavaOutline
