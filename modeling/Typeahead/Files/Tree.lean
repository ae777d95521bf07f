import Typeahead.Project.Path
import Typeahead.Text.Decoding

/-!
# Files and directories

A directory tree in memory, with the rules by which paths lead through it: a path
is followed segment by segment, every segment but the last one has to lead to a
directory, and so does the last one if the path goes on with a slash.
-/

namespace Typeahead

/-- Why a file cannot be had. -/
inductive FileError
  | notFound
  | notADirectory
  | isADirectory
  /-- The bytes of the file are no text. -/
  | notText
  /-- Any other reason, in the words of the system. -/
  | other (reason : String)
  deriving DecidableEq, Repr

/-- The wording of an error. -/
def FileError.message : FileError → String
  | notFound => "No such file or directory (os error 2)"
  | notADirectory => "Not a directory (os error 20)"
  | isADirectory => "Is a directory (os error 21)"
  | notText => "stream did not contain valid UTF-8"
  | other reason => reason

/-- The text that bytes stand for. -/
def textOf (bytes : List UInt8) : Except FileError (List Char) :=
  match decode? bytes with
  | some cs => .ok cs
  | none => .error .notText

/-- A file, with the seconds since it was changed, or a directory. -/
inductive FileTree
  | file (bytes : List UInt8) (age : Nat)
  | directory (entries : List (String × FileTree))

namespace FileTree

/-- What is at a place below a directory, given by the names that lead to it. -/
def get? : List String → FileTree → Option FileTree
  | [], t => some t
  | _ :: _, file _ _ => none
  | name :: names, directory entries =>
    match entries.lookup name with
    | some t => t.get? names
    | none => none

/-- The entries with a new one, or without one. -/
def setEntry (name : String) (new : Option FileTree) (entries : List (String × FileTree)) :
    List (String × FileTree) :=
  entries.filter (·.1 != name) ++ (new.map (name, ·)).toList

/-- The tree with something else at a place, or nothing. The directory that it is
    in has to be there. -/
def set (new : Option FileTree) : List String → FileTree → FileTree
  | [], t => t
  | _ :: _, file bytes age => file bytes age
  | [name], directory entries => directory (setEntry name new entries)
  | name :: names, directory entries =>
    match entries.lookup name with
    | some t => directory (setEntry name (some (t.set new names)) entries)
    | none => directory entries

end FileTree

/-- A tree, and the directory where relative paths start. -/
structure Disk where
  root : FileTree
  current : List String

namespace Disk

variable (d : Disk)

/-- The segments of a path between its slashes. -/
def segments (path : String) : List String :=
  (splitFields (· == '/') [] path.toList).map String.ofList

/-- The place where a path starts. -/
def start (path : String) : List String :=
  if path.toList.head? == some '/' then [] else d.current

/-- The place that a segment leads to. -/
def enter (place : List String) (segment : String) : Except FileError (List String) :=
  match d.root.get? place with
  | none => .error .notFound
  | some (.file _ _) => .error .notADirectory
  | some (.directory entries) =>
    if segment.isEmpty || segment == "." then .ok place
    else if segment == ".." then .ok place.dropLast
    else if (entries.lookup segment).isSome then .ok (place ++ [segment])
    else .error .notFound

/-- The place that a path leads to. -/
def resolve (path : String) : Except FileError (List String) :=
  if path.isEmpty then .error .notFound else (segments path).foldlM d.enter (d.start path)

/-- The path of a place from the root on. -/
def pathOf (place : List String) : String := "/" ++ "/".intercalate place

/-- The bytes of the file at a path. -/
def readBytes (path : String) : Except FileError (List UInt8) := do
  match d.root.get? (← d.resolve path) with
  | some (.file bytes _) => return bytes
  | some (.directory _) => .error .isADirectory
  | none => .error .notFound

/-- Whether a path leads to a directory. -/
def isDirectory (path : String) : Bool :=
  match d.resolve path with
  | .error _ => false
  | .ok place =>
    match d.root.get? place with
    | some (.directory _) => true
    | _ => false

/-- The disk with something else at a place, or nothing. -/
def set (place : List String) (new : Option FileTree) : Disk :=
  { d with root := d.root.set new place }

/-- Goes on from a place by a segment, making a directory if there is nothing. -/
def enterOrMake (place : List String) (segment : String) : Except FileError (Disk × List String) :=
  match d.enter place segment with
  | .ok place => .ok (d, place)
  | .error .notFound => .ok (d.set (place ++ [segment]) (some (.directory [])), place ++ [segment])
  | .error e => .error e

/-- Makes the directories that the segments lead through from a place on. -/
def makeDirectories (place : List String) :
    List String → Disk → Except FileError (Disk × List String)
  | [], d =>
    match d.root.get? place with
    | some (.directory _) => .ok (d, place)
    | _ => .error .notADirectory
  | segment :: rest, d => do
    let (d, place) ← d.enterOrMake place segment
    makeDirectories place rest d

/-- The segments of a path that lead to the directory of what it names. -/
def parentSegments (path : String) : List String :=
  (((segments path).reverse.dropWhile fun s => s.isEmpty || s == ".").drop 1).reverse

/-- Writes the file at a path, whose directory has to be there. -/
def writeExisting (path : String) (bytes : List UInt8) : Except FileError Disk := do
  let place ← (segments path).dropLast.foldlM d.enter (d.start path)
  let name := (segments path).getLast?.getD ""
  if name.isEmpty || name == "." || name == ".." then .error .isADirectory
  else
    match d.root.get? place, d.root.get? (place ++ [name]) with
    | some (.directory _), some (.directory _) => .error .isADirectory
    | some (.directory _), _ => return d.set (place ++ [name]) (some (.file bytes 0))
    | _, _ => .error .notADirectory

/-- Writes the file at a path and makes the directories that lead to it. They
    stay there even if the file cannot be written. -/
def write (path : String) (bytes : List UInt8) : Except FileError Unit × Disk :=
  match makeDirectories (d.start path) (parentSegments path) d with
  | .error e => (.error e, d)
  | .ok (d, _) =>
    match d.writeExisting path bytes with
    | .error e => (.error e, d)
    | .ok d => (.ok (), d)

end Disk

end Typeahead
