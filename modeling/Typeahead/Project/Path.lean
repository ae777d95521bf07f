import Typeahead.Text.Split

/-!
# Paths

Paths of files, as they are written with slashes. Two spellings are the same
path if they have the same parts: repeated slashes, a slash at the end and dots
for the current directory do not count, except for a dot at the very start.
-/

namespace Typeahead

/-- A part of a path. -/
inductive PathPart
  /-- The slash at the start of an absolute path. -/
  | root
  /-- The dot at the start of a relative path. -/
  | current
  /-- The step to the parent directory. -/
  | parent
  | name (text : List Char)
  deriving DecidableEq, Repr

/-- The part that a text between slashes stands for, if any. -/
def PathPart.ofSegment? (segment : List Char) : Option PathPart :=
  if segment = ['.'] then none
  else if segment = ['.', '.'] then some .parent
  else some (.name segment)

/-- The parts of a path. -/
def pathParts (path : String) : List PathPart :=
  let cs := path.toList
  let segments := splitWords (· == '/') cs
  let parts := segments.filterMap PathPart.ofSegment?
  if cs.head? = some '/' then .root :: parts
  else if segments.head? = some ['.'] then .current :: parts
  else parts

/-- Whether two spellings are the same path. -/
def samePath (p q : String) : Bool := pathParts p == pathParts q

/-- The name of the file that a path leads to. -/
def fileName? (path : String) : Option (List Char) :=
  match (pathParts path).getLast? with
  | some (.name text) => some text
  | _ => none

/-- A file name cut at its last dot, if there is one after the first
    character. -/
def splitExtension (name : List Char) : List Char × Option (List Char) :=
  let tail := name.reverse.takeWhile (· != '.')
  let stem := name.take (name.length - tail.length - 1)
  if tail.length = name.length || stem.isEmpty then (name, none) else (stem, some tail.reverse)

/-- The name of the file that a path leads to, without its extension; empty when
    there is no name. -/
def fileStem (path : String) : String :=
  String.ofList (((fileName? path).map fun name => (splitExtension name).1).getD [])

end Typeahead
