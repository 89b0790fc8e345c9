import JavaOutline.Entries
import JavaOutline.Files.Path

/-!
# JavaOutline.Files.Tree

Trees of files, as they stand while a batch is read, and what is found in
them by following steps.
-/

namespace JavaOutline

/-- A file with its bytes, or a directory with its named entries. -/
inductive FileTree where
  | file (bytes : List UInt8)
  | directory (entries : List (String × FileTree))
  deriving Inhabited

/-- Why a path leads to no file. -/
inductive PathFailure where
  /-- There is nothing of the name. -/
  | missing
  /-- A directory stands where a file is wanted. -/
  | isDirectory
  /-- A file stands where a directory is wanted. -/
  | notDirectory
  deriving DecidableEq, Repr

/-- The text of a failure. -/
def PathFailure.message : PathFailure → String
  | .missing => "No such file or directory (os error 2)"
  | .isDirectory => "Is a directory (os error 21)"
  | .notDirectory => "Not a directory (os error 20)"

namespace FileTree

/-- The tree with no file. -/
def empty : FileTree := .directory []

/-- The entry of a name, in whatever order the entries are listed. -/
def entryOf? (name : String) (entries : List (String × FileTree)) : Option FileTree :=
  Entries.lookup name entries

/-- Follow components from a tree that lies in the directories `outer`,
innermost first.  The step back from the outermost directory stays there. -/
def follow (outer : List FileTree) (tree : FileTree) : List String → Except PathFailure FileTree
  | [] => .ok tree
  | component :: rest =>
    match tree with
    | .file _ => .error .notDirectory
    | .directory entries =>
      if Path.isIdle component then follow outer tree rest
      else if component = ".." then
        match outer with
        | [] => follow [] tree rest
        | parent :: outer => follow outer parent rest
      else
        match entryOf? component entries with
        | none => .error .missing
        | some next => follow (tree :: outer) next rest

/-! ## Building trees -/

/-- Put something at the end of some steps, making the directories on the
way.  A file on the way gives place to a directory. -/
def put (tree : FileTree) (node : FileTree) : List String → FileTree
  | [] =>
    match tree, node with
    | .directory entries, .directory [] => .directory entries
    | _, _ => node
  | step :: rest =>
    let entries :=
      match tree with
      | .directory entries => entries
      | .file _ => []
    .directory (Entries.put step (((entryOf? step entries).getD empty).put node rest) entries)

/-- Put something where components lead from the end of some steps.  Every
directory that they enter is made, also one that they leave again. -/
def putFrom (tree : FileTree) (steps : List String) (node : FileTree) : List String → FileTree
  | [] => tree.put node steps
  | component :: rest =>
    match Path.advance steps component with
    | none => tree
    | some next => (tree.put empty steps).putFrom next node rest

/-- Put something at a path, which leads nowhere outside the tree. -/
def putAt (root : FileTree) (path : String) (node : FileTree) : FileTree :=
  if Path.isAbsolute path then root else root.putFrom [] node (Path.components path)

/-! ## Discovery -/

mutual
/-- The files with one of some extensions in a tree that stands at a path,
in ascending order of the names at each level. -/
def found (extensions : List String) (path : String) : FileTree → List String
  | .file _ => if Path.hasExtension extensions path then [path] else []
  | .directory entries =>
    (Entries.ofList (foundEach extensions path entries)).flatMap Prod.snd

/-- The same for each entry of a directory, under its name. -/
def foundEach (extensions : List String) (directory : String) :
    List (String × FileTree) → List (String × List String)
  | [] => []
  | (name, tree) :: rest =>
    (name, found extensions (Path.join directory name) tree) :: foundEach extensions directory rest
end

end FileTree

end JavaOutline
