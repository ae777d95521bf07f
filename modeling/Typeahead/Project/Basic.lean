import Typeahead.Project.Path

/-!
# Projects

A project lists the paths of its source files and tells the text of each. It may
fail to do so. A project that is only unavailable is passed over, but one that
breaks down takes the request with it.

Hosts that hold the documents of a project themselves give them as `Documents`.
-/

namespace Typeahead

/-- Why a project does not answer. -/
inductive Outage
  /-- Nothing can be had now. -/
  | unavailable
  /-- The project broke down. -/
  | breakdown
  deriving DecidableEq, Repr

/-- The source files of a project. -/
structure Project where
  /-- The paths of the files, as many as the limit allows. -/
  paths : Nat → Except Outage (List String)
  /-- The text of the file at a path. -/
  read : String → Except Outage String

/-- A file with its text. -/
structure Document where
  path : String
  text : String
  deriving DecidableEq, Repr

/-- Which access to a project breaks it down. -/
inductive Access
  | list
  | read
  deriving DecidableEq, Repr

/-- The documents that a host holds, and what it does not give away now. -/
structure Documents where
  files : List Document
  /-- The paths of the files whose texts are unavailable. -/
  unreadable : List String := []
  /-- Whether the list of the files is available. -/
  isListable : Bool := true
  /-- The access that breaks the project down, if any. -/
  broken : Option Access := none

namespace Documents

/-- Replaces the text of the first file with exactly the given path, or else adds
    a file. -/
def set (d : Documents) (path text : String) : Documents :=
  match d.files.findIdx? (·.path == path) with
  | some i => { d with files := d.files.set i ⟨path, text⟩ }
  | none => { d with files := d.files ++ [⟨path, text⟩] }

/-- Removes the files with exactly the given path. -/
def remove (d : Documents) (path : String) : Documents :=
  { d with files := d.files.filter (·.path != path) }

/-- The paths of the first files. -/
def paths (d : Documents) (limit : Nat) : Except Outage (List String) :=
  if d.broken = some .list then .error .breakdown
  else if d.isListable then .ok ((d.files.take limit).map (·.path))
  else .error .unavailable

/-- The text of the first file at a path. -/
def read (d : Documents) (path : String) : Except Outage String :=
  if d.broken = some .read then .error .breakdown
  else if d.unreadable.contains path then .error .unavailable
  else
    match d.files.find? (samePath ·.path path) with
    | some f => .ok f.text
    | none => .error .unavailable

/-- The project of the documents. -/
def toProject (d : Documents) : Project := ⟨d.paths, d.read⟩

end Documents

end Typeahead
