import Typeahead.Candidate.Json
import Typeahead.CommandLine.Help
import Typeahead.CommandLine.Options
import Typeahead.CommandLine.Report
import Typeahead.CommandLine.SessionLog
import Typeahead.Config.Reader
import Typeahead.Engine.Basic
import Typeahead.Files.Walk

/-!
# Running the command line

The command line reads a source and prints what can be typed at a place in it.
It reaches the world only through a `Host`, so that a run in memory and a run on
a system follow the same rules.
-/

namespace Typeahead

/-- The world around a command line. -/
structure Host (m : Type → Type) where
  /-- The bytes of the standard input. -/
  input : m (List UInt8)
  /-- The bytes of the file at a path. -/
  readBytes : String → m (Except FileError (List UInt8))
  /-- The path from the root on of what is at a path. -/
  canonical : String → m (Except FileError String)
  /-- Whether a path leads to a directory. -/
  isDirectory : String → m Bool
  /-- The project in a directory, of which at most so many files are asked for. -/
  project : String → Nat → m Project
  /-- Starts to log the session to a file. -/
  startLog : m (Except FileError Unit)

/-- How a run ends. -/
inductive Outcome
  /-- The answer was printed. -/
  | printed (text : String)
  /-- The run failed. -/
  | failed (failure : Failure)
  /-- The command line was not understood. -/
  | misused (error : UsageError)
  deriving DecidableEq, Repr

/-- The code that the process ends with. -/
def Outcome.exitCode : Outcome → Nat
  | printed _ => 0
  | failed _ => 1
  | misused _ => 2

namespace Host

variable {m : Type → Type} [Monad m] (h : Host m)

/-- A step of a run, which may fail. -/
abbrev Step (m : Type → Type) := ExceptT Failure m

/-- Goes on with the value of a result, or fails with a message. -/
def orFail {α : Type} (message : String) (result : Except FileError α) : Step m α :=
  match result with
  | .ok a => pure a
  | .error e => throw ⟨message, [e.message]⟩

/-- Starts to log the session, to a file or else only to the console, which can
    always be done. -/
def startLogging (toFile : Bool) : m (Except FileError Unit) :=
  if toFile then h.startLog else return .ok ()

/-- The source. -/
def source (file : Option String) : Step m (List Char) := do
  match file with
  | some path =>
    let bytes ← ExceptT.lift (h.readBytes path)
    orFail ("failed to read source file " ++ path) (bytes >>= textOf)
  | none =>
    let bytes ← ExceptT.lift h.input
    orFail "failed to read source from stdin" (textOf bytes)

/-- The failure of settings that cannot be read. -/
def configFailure (path : String) (causes : List String) : Failure :=
  ⟨"invalid completion config " ++ path, causes⟩

/-- The settings. -/
def config (file : Option String) : Step m Config := do
  match file with
  | none => return {}
  | some path =>
    let bytes ← ExceptT.lift (h.readBytes path)
    match bytes >>= textOf with
    | .error e =>
      let reason := e.message
      throw (configFailure path ["failed to read config file " ++ path ++ ": " ++ reason, reason])
    | .ok cs =>
      match Config.read cs with
      | .ok c => return c
      | .error (.invalid e) => throw (configFailure path [e.message])
      | .error (.malformed e) =>
        let reason := e.message cs
        throw (configFailure path ["invalid completion config: " ++ reason, reason])

/-- The root of the project. -/
def projectRoot (root : Option String) : Step m (Option String) := do
  match root with
  | none => return none
  | some path =>
    let place ← orFail ("project root " ++ path ++ " not found") (← ExceptT.lift (h.canonical path))
    if ← ExceptT.lift (h.isDirectory place) then return some place
    else throw ⟨"invalid project root", [(DirectoryError.notADirectory place).message]⟩

/-- The engine with the given settings for a project. -/
def engine (config : Config) (root : Option String) : Step m Engine := do
  let e := Engine.new config
  match root with
  | none => return e
  | some path => return { e with project := some (← h.project path config.maxProjectFiles) }

/-- The path of the source file from the root on, if it is known. -/
def currentFile (file : Option String) : Step m (Option String) := do
  match file with
  | none => return none
  | some path =>
    match ← ExceptT.lift (h.canonical path) with
    | .ok place => return some place
    | .error _ => return none

omit [Monad m] in
/-- The offset of the cursor. -/
def offsetOf (cs : List Char) : Target → Except Failure Nat
  | .offset n => .ok n
  | .textEnd => .ok (byteLength cs)
  | .position p =>
    match p.toOffset? cs with
    | some n => .ok n
    | none => .error ⟨(RequestError.positionOutOfBounds p).message, []⟩

/-- The text of an answer. -/
def printed (format : Format) (cs : List Candidate) : String :=
  match format with
  | .json => String.ofList (JsonTree.list (cs.map (·.toJson))).render ++ "\n"
  | .lsp => String.ofList (JsonTree.list ((Candidate.toItems cs).map (·.toJson))).render ++ "\n"
  | .plain =>
    String.join (cs.map fun c =>
      match c.hint with
      | some hint => c.display ++ "\t" ++ hint ++ "\n"
      | none => c.display ++ "\n")

/-- The answer to what the options ask for. -/
def complete (o : Options) : Step m String := do
  orFail "failed to initialize logging" (← ExceptT.lift (h.startLogging o.logsToFile))
  let cs ← h.source o.file
  let config ← h.config o.config
  let root ← h.projectRoot o.project
  let e ← h.engine config root
  let file ← h.currentFile o.file
  let offset ← (offsetOf cs o.target : Except Failure Nat)
  match e.completeSource .standard cs offset file with
  | .ok (candidates, _) => return printed o.format candidates
  | .error e => throw ⟨"completion request failed", [e.message]⟩

/-- Runs a command line. -/
def run (args : List String) : m Outcome := do
  match Options.parse args with
  | .error e => return .misused e
  | .ok (.help long) => return .printed (if long then Help.long else Help.short)
  | .ok .version => return .printed Help.version
  | .ok (.complete o) =>
    match ← (h.complete o).run with
    | .ok text => return .printed text
    | .error failure => return .failed failure

end Host

/-- The world in memory: a disk, the standard input, and the name of a new log,
    which goes below the directory `.cache`. -/
def Disk.host (input : List UInt8) (logName : String) : Host (StateM Disk) where
  input := return input
  readBytes path := return (← get).readBytes path
  canonical path := return ((← get).resolve path).map Disk.pathOf
  isDirectory path := return (← get).isDirectory path
  project path _ := return (← get).project path
  startLog :=
    modifyGet fun d =>
      match d.startLog (d.current ++ [".cache"]) logName with
      | .ok d => (.ok (), d)
      | .error e => (.error e, d)

end Typeahead
