import Typeahead.Files.Walk

/-!
# Scratch projects

A scratch project is an empty directory that files are written to, by paths
relative to it.
-/

namespace Typeahead

/-- Why a file of a scratch project cannot be written. -/
inductive ScratchError
  | notRelative (path : String)
  | failed (reason : FileError)
  deriving DecidableEq, Repr

/-- The wording of an error. -/
def ScratchError.message : ScratchError → String
  | notRelative path => "project files must be relative: " ++ path
  | failed reason => reason.message

namespace Disk

/-- The disk with nothing but an empty current directory. -/
def scratch : Disk := ⟨.directory [("scratch", .directory [])], ["scratch"]⟩

/-- Writes a file of a scratch project. -/
def writeRelative (d : Disk) (path : String) (bytes : List UInt8) :
    Except ScratchError Unit × Disk :=
  if path.toList.head? == some '/' then (.error (.notRelative path), d)
  else
    let (result, d) := d.write path bytes
    (result.mapError .failed, d)

end Disk

end Typeahead
