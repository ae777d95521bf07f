import Typeahead.Files.Tree
import Typeahead.Project.Basic

/-!
# Walks through directories

A walk lists what is in a directory, however deep, each directory before its
entries and the entries of a directory by name. Hidden entries and those of other
packages are left out. The source files of a project are those that a walk finds,
as many as the limit allows, and one in any case.
-/

namespace Typeahead

/-- What a walk finds. -/
inductive WalkItem
  | file (path : String)
  | directory (path : String)
  /-- Something that could not be read. -/
  | unreadable
  deriving DecidableEq, Repr

/-- Whether an entry of a directory is left out. -/
def isSkippedEntry (name : String) : Bool :=
  name.toList.head? == some '.' || name == "vendor" || name == "node_modules"

/-- The path of an entry of a directory. -/
def entryPath (path name : String) : String :=
  if path.isEmpty || path == "/" then path ++ name else path ++ "/" ++ name

/-- The items of the entries of a directory, which come with the names of the
    entries, by name. -/
def inNameOrder (items : List (String × List WalkItem)) : List WalkItem :=
  (items.mergeSort fun a b => decide (a.1 ≤ b.1)).flatMap Prod.snd

mutual

/-- The walk through what is at a path. -/
def FileTree.walk (path : String) : FileTree → List WalkItem
  | .file _ _ => [.file path]
  | .directory entries => .directory path :: inNameOrder (FileTree.walkEntries path entries)

/-- The walks through the entries of a directory. -/
def FileTree.walkEntries (path : String) :
    List (String × FileTree) → List (String × List WalkItem)
  | [] => []
  | (name, t) :: entries =>
    let rest := FileTree.walkEntries path entries
    if isSkippedEntry name then rest else (name, t.walk (entryPath path name)) :: rest

end

/-- Whether a path is that of a source file. -/
def isSourcePath (path : String) : Bool :=
  (fileName? path).any fun name => (splitExtension name).2 == some "phel".toList

/-- The source file that an item is. -/
def WalkItem.source? : WalkItem → Option String
  | file path => if isSourcePath path then some path else none
  | _ => none

/-- The listing that a walk goes on with from the paths `found`: it ends when a
    source file makes it as long as the limit. -/
def listSources (limit : Nat) (found : List String) : List WalkItem → List String
  | [] => found
  | item :: items =>
    match item.source? with
    | none => listSources limit found items
    | some path =>
      if limit ≤ found.length + 1 then found ++ [path]
      else listSources limit (found ++ [path]) items

/-- The paths of the source files that a walk finds. -/
def sourcePaths (limit : Nat) (items : List WalkItem) : List String := listSources limit [] items

/-- The project of the files that a walk finds. -/
def Project.ofWalk (items : Except FileError (List WalkItem))
    (read : String → Except FileError (List UInt8)) : Project where
  paths limit :=
    match items with
    | .ok items => .ok (sourcePaths limit items)
    | .error _ => .error .unavailable
  read path :=
    match read path >>= textOf with
    | .ok cs => .ok (String.ofList cs)
    | .error _ => .error .unavailable

/-- Why a directory is no project. -/
inductive DirectoryError
  | notADirectory (path : String)
  /-- The directory cannot be walked through. -/
  | unlistable (reason : FileError)
  deriving DecidableEq, Repr

/-- The wording of an error. -/
def DirectoryError.message : DirectoryError → String
  | notADirectory path => "project root " ++ path ++ " is not a directory"
  | unlistable reason => "failed to walk project directory: " ++ reason.message

namespace Disk

/-- The walk through the directory at a path. -/
def walk (d : Disk) (path : String) : Except FileError (List WalkItem) := do
  match d.root.get? (← d.resolve path) with
  | some t => return t.walk path
  | none => .error .notFound

/-- The path from the root on of the directory at a path. -/
def openDirectory (d : Disk) (path : String) : Except DirectoryError String :=
  match d.resolve path with
  | .ok place =>
    if d.isDirectory path then .ok (pathOf place) else .error (.notADirectory path)
  | .error _ => .error (.notADirectory path)

/-- The paths of the source files in the directory at a path. -/
def sourceFiles (d : Disk) (path : String) (limit : Nat) : Except DirectoryError (List String) :=
  ((d.walk path).map (sourcePaths limit)).mapError .unlistable

/-- The text of the file at a path. -/
def readText (d : Disk) (path : String) : Except FileError (List Char) :=
  d.readBytes path >>= textOf

/-- The project in the directory at a path. -/
def project (d : Disk) (path : String) : Project := .ofWalk (d.walk path) d.readBytes

end Disk

end Typeahead
