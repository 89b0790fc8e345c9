/-!
# JavaOutline.Batch.Failure

Why a file cannot be read.  Text that makes no sense is not among the
reasons: what cannot be understood declares nothing.
-/

namespace JavaOutline

/-- Why a file cannot be read. -/
inductive ReadFailure where
  /-- The file system refuses; `cause` is what it says. -/
  | unreadable (path cause : String)
  /-- The file has more bytes than the settings allow. -/
  | tooLarge (path : String) (size : Nat)
  /-- The file is not of a kind that can be read. -/
  | unsupported (path reason : String)
  /-- The records cannot be kept. -/
  | unregistered (reason : String)
  deriving DecidableEq, Repr

namespace ReadFailure

/-- The text of a failure. -/
def message : ReadFailure → String
  | .unreadable path cause => "IO error reading " ++ path ++ ": " ++ cause
  | .tooLarge path size =>
    "File " ++ path ++ " exceeds maximum size (" ++ toString size ++ " bytes)"
  | .unsupported path reason => "Unsupported input " ++ path ++ ": " ++ reason
  | .unregistered reason => "Registry error: " ++ reason

/-- The text of the error behind a failure. -/
def cause : ReadFailure → Option String
  | .unreadable _ cause => some cause
  | .tooLarge _ _ => none
  | .unsupported _ _ => none
  | .unregistered _ => none

end ReadFailure

end JavaOutline
