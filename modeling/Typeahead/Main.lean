import Typeahead.CommandLine.Run

/-!
# The program

The command line on a real system: the host that reads the files, the directories
and the standard input of the system, and the program that runs with it.
-/

namespace Typeahead.Terminal

/-- The reason why the system refused something. -/
def reasonOf : IO.Error → FileError
  | .noFileOrDirectory .. => .notFound
  | .inappropriateType _ 20 _ => .notADirectory
  | .inappropriateType _ 21 _ => .isADirectory
  | e => .other e.toString

/-- The result of an action, or why it failed. -/
def attempt {α : Type} (action : IO α) : IO (Except FileError α) := do
  try return .ok (← action)
  catch e => return .error (reasonOf e)

/-- All bytes that a stream has left, after those in `read`. -/
partial def readAll (stream : IO.FS.Stream) (read : ByteArray) : IO ByteArray := do
  let bytes ← stream.read 65536
  if bytes.isEmpty then return read else readAll stream (read ++ bytes)

/-- The bytes of the file at a path. -/
def readBytes (path : String) : IO (Except FileError (List UInt8)) :=
  attempt do return (← IO.FS.readBinFile path).toList

/-- The path from the root on of what is at a path. -/
def canonical (path : String) : IO (Except FileError String) :=
  attempt do return (← IO.FS.realPath path).toString

/-- Whether a path leads to a directory. -/
def isDirectory (path : String) : IO Bool := do
  match ← attempt (IO.FS.realPath path) with
  | .ok place => place.isDir
  | .error _ => return false

/-- The walk through the directory at a path. -/
partial def walk (path : String) : IO (List WalkItem) := do
  let place ← IO.FS.realPath path
  let mut items := []
  for entry in ← place.readDir do
    unless isSkippedEntry entry.fileName do
      let below := entryPath path entry.fileName
      let found ← attempt do
        match (← entry.path.symlinkMetadata).type with
        | .dir => walk below
        | .file => return [.file below]
        | _ => return []
      items := (entry.fileName, match found with
        | .ok found => found
        | .error _ => [.unreadable]) :: items
  return .directory path :: inNameOrder items

/-- The project in a directory, of which at most so many files are asked for. -/
def project (path : String) (limit : Nat) : IO Project := do
  let items ← attempt (walk path)
  let paths := match items with
    | .ok items => sourcePaths limit items
    | .error _ => []
  let texts ← paths.mapM fun p => return (p, ← readBytes p)
  return .ofWalk items fun p => (texts.lookup p).getD (.error .notFound)

/-- The directory of the system for data that can be made anew. -/
def cacheDirectory : IO String := do
  match ← IO.getEnv "XDG_CACHE_HOME" with
  | some path => if path.startsWith "/" then return path
  | none => pure ()
  return (← IO.getEnv "HOME").getD "" ++ "/.cache"

/-- Starts a log file, and removes old ones. The new file tells the time. -/
def startLog : IO (Except FileError Unit) :=
  attempt do
    let path := "/".intercalate ((← cacheDirectory) :: logDirectory)
    IO.FS.createDirAll path
    let name := "session-" ++ toString (← IO.monoNanosNow) ++ ".log"
    IO.FS.writeFile (path ++ "/" ++ name) ""
    let place ← IO.FS.realPath path
    let now := (← (place / name).metadata).modified.sec
    for entry in ← place.readDir do
      let data ← entry.path.symlinkMetadata
      if data.type == .file && isStaleLog entry.fileName (now - data.modified.sec).toNat then
        IO.FS.removeFile entry.path

/-- The system as a command line sees it. -/
def host : Host IO where
  input := do return (← readAll (← IO.getStdin) .empty).toList
  readBytes := readBytes
  canonical := canonical
  isDirectory := isDirectory
  project := project
  startLog := startLog

end Typeahead.Terminal

open Typeahead in
/-- Runs the command line. -/
def main (args : List String) : IO UInt32 := do
  let outcome ← Terminal.host.run args
  match outcome with
  | .printed text => IO.print text
  | .failed failure => IO.eprint failure.render
  | .misused error => IO.eprintln ("error: " ++ error.message)
  return outcome.exitCode.toUInt32
