import JavaOutline.Text.Split

/-!
# JavaOutline.Files.Path

Paths are texts whose components are separated by slashes.  Empty
components and `.` name the directory before them, so only the others are
steps; `..` is the step back.
-/

namespace JavaOutline

namespace Path

/-- The components of a path, with those that are no steps. -/
def components (path : String) : List String :=
  (Text.pieces '/' path.toList).map String.ofList

/-- Whether a component stays where it stands. -/
def isIdle (component : String) : Bool := component == "" || component == "."

/-- Whether a path starts from the outermost directory. -/
def isAbsolute (path : String) : Bool := path.toList.head? == some '/'

/-- The steps from the root after one more component, unless it steps back
out of the root. -/
def advance (steps : List String) (component : String) : Option (List String) :=
  if isIdle component then some steps
  else if component = ".." then if steps.isEmpty then none else some steps.dropLast
  else some (steps ++ [component])

/-- The path of an entry of a directory.  One slash stands between the
two. -/
def join (directory name : String) : String :=
  if directory.toList.getLast?.all (· == '/') then directory ++ name
  else directory ++ "/" ++ name

/-- The name of the file that a path leads to, if its last step is not
back. -/
def fileName? (path : String) : Option String :=
  match ((components path).filter fun c => !isIdle c).getLast? with
  | none => none
  | some name => if name = ".." then none else some name

/-- The extension of a path with its dot: what the last dot of the file
name begins, unless the name begins there. -/
def extension? (path : String) : Option String := do
  match Text.cutLast '.' (← fileName? path).toList with
  | none => none
  | some (stem, ending) => if stem.isEmpty then none else some (String.ofList ('.' :: ending))

/-- Whether a path has one of some extensions, which are given with their
dots. -/
def hasExtension (extensions : List String) (path : String) : Bool :=
  (extension? path).any extensions.contains

end Path

end JavaOutline
