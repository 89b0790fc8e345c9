/-!
# JavaOutline.Batch.Settings

How files are read.
-/

namespace JavaOutline

/-- How files are read. -/
structure Settings where
  /-- Files of more bytes are refused. -/
  sizeLimit : Nat
  /-- Whether the local variables of methods are wanted. -/
  wantsLocals : Bool
  /-- Whether the files of a batch are read side by side. -/
  parallel : Bool
  /-- How many files are read at a time; one for each processor if absent. -/
  workers : Option Nat
  deriving DecidableEq, Repr

namespace Settings

/-- Files of up to ten mebibytes, one after the other, with the local
variables of methods. -/
def usual : Settings := ⟨10 * 1024 * 1024, true, false, none⟩

/-- The usual settings without local variables, so method bodies are
passed over. -/
def fast : Settings := { usual with wantsLocals := false }

/-- The usual settings with local variables. -/
def comprehensive : Settings := { usual with wantsLocals := true }

end Settings

end JavaOutline
