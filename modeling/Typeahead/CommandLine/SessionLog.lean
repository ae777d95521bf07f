import Typeahead.Files.Tree

/-!
# Session logs

On demand a session is logged to a file of its own. Before that, the logs of
sessions more than a week ago are removed.
-/

namespace Typeahead

/-- How many seconds a log is kept. -/
def logRetention : Nat := 7 * 24 * 60 * 60

/-- Whether a file is the log of a session. -/
def isSessionLog (name : String) : Bool :=
  "session-".toList.isPrefixOf name.toList && ".log".toList.isSuffixOf name.toList

/-- Whether a file of a given age is removed. -/
def isStaleLog (name : String) (age : Nat) : Bool := isSessionLog name && logRetention < age

/-- The directory of the logs below that for data that can be made anew. -/
def logDirectory : List String := ["phel-lang", "phel-completion"]

namespace Disk

/-- The entries of the log directory that are kept. -/
def keptLogs (entries : List (String × FileTree)) : List (String × FileTree) :=
  entries.filter fun (name, t) =>
    match t with
    | .file _ age => !isStaleLog name age
    | .directory _ => true

/-- Starts a log with the given name, in the log directory below `cache`. -/
def startLog (d : Disk) (cache : List String) (name : String) : Except FileError Disk := do
  let (d, place) ← makeDirectories [] (cache ++ logDirectory) d
  match d.root.get? place with
  | some (.directory entries) =>
    return d.set place (some (.directory (keptLogs entries ++ [(name, .file [] 0)])))
  | _ => .error .notADirectory

end Disk

end Typeahead
