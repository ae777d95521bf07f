import Typeahead.Text.Lines

/-!
# Options of the command line

An option is written `--name value` or `--name=value`, and at most once. The
place of the cursor is an offset, or a line and a character.
-/

namespace Typeahead

/-- How an answer is printed. -/
inductive Format
  /-- Candidates as JSON. -/
  | json
  /-- Items as JSON. -/
  | lsp
  /-- One candidate a line. -/
  | plain
  deriving DecidableEq, Repr

/-- The name of a format. -/
def Format.label : Format → String
  | json => "json"
  | lsp => "lsp"
  | plain => "plain"

/-- The format with a given name. -/
def Format.ofLabel? (s : String) : Option Format := [json, lsp, plain].find? (·.label == s)

/-- The place of the cursor. -/
inductive Target
  | offset (n : Nat)
  | position (p : Position)
  /-- The end of the text. -/
  | textEnd
  deriving DecidableEq, Repr

/-- What the command line asks for. -/
structure Options where
  /-- The source file; without one the source is the standard input. -/
  file : Option String
  target : Target
  /-- The root of the project. -/
  project : Option String
  /-- The file with the settings. -/
  config : Option String
  format : Format
  /-- Whether the session is written to a log file. -/
  logsToFile : Bool
  deriving DecidableEq, Repr

/-- Why a command line is not understood. -/
inductive UsageError
  | unexpected (arg : String)
  | missingValue (option : String)
  | invalidValue (option value : String)
  | needlessValue (flag : String)
  | repeated (option : String)
  | conflict (option other : String)
  | incomplete (option other : String)
  deriving DecidableEq, Repr

/-- The wording of an error. -/
def UsageError.message : UsageError → String
  | unexpected arg => "unexpected argument '" ++ arg ++ "' found"
  | missingValue option => "a value is required for '--" ++ option ++ "' but none was supplied"
  | invalidValue option value => "invalid value '" ++ value ++ "' for '--" ++ option ++ "'"
  | needlessValue flag => "no value is expected for '--" ++ flag ++ "'"
  | repeated option => "the argument '--" ++ option ++ "' cannot be used multiple times"
  | conflict option other =>
    "the argument '--" ++ option ++ "' cannot be used with '--" ++ other ++ "'"
  | incomplete option other =>
    "the argument '--" ++ option ++ "' needs the argument '--" ++ other ++ "'"

/-- What a command line is for. -/
inductive Command
  | help (long : Bool)
  | version
  | complete (options : Options)
  deriving DecidableEq, Repr

namespace Options

/-- The number that digits write. -/
def digits? (cs : List Char) : Option Nat :=
  if cs.isEmpty || !cs.all (·.isDigit) then none
  else some (cs.foldl (fun n c => n * 10 + (c.toNat - '0'.toNat)) 0)

/-- A natural number below `bound`, with an optional sign. Only a number that may
    have either sign may be written with a minus. -/
def number? (bound : Nat) (signed : Bool) (s : String) : Option Nat :=
  let bounded := fun (n : Nat) => if n < bound then some n else none
  match s.toList with
  | '+' :: cs => (digits? cs).bind bounded
  | '-' :: cs => if signed && digits? cs == some 0 then some 0 else none
  | cs => (digits? cs).bind bounded

/-- Whether the value of an option is valid. -/
def isValid (name value : String) : Bool :=
  match name with
  | "file" | "project" | "config" => !value.isEmpty
  | "offset" => (number? (Nat.pow 2 64) false value).isSome
  | "line" | "character" => (number? (Nat.pow 2 32) true value).isSome
  | "format" => (Format.ofLabel? value).isSome
  | _ => true

/-- The options that have a value. -/
def valued : List String :=
  ["file", "offset", "line", "character", "project", "config", "format", "log-level"]

/-- The options that have none. -/
def flags : List String := ["no-color", "log-file"]

/-- The options that were given, with their values. -/
abbrev Given := List (String × String)

/-- Adds an option with its value. -/
def give (given : Given) (name value : String) : Except UsageError Given :=
  if !isValid name value then .error (.invalidValue name value)
  else if (given.lookup name).isSome then .error (.repeated name)
  else .ok ((name, value) :: given)

/-- The place of the cursor that options give. -/
def targetOf (given : Given) : Except UsageError Target :=
  match given.lookup "offset", given.lookup "line", given.lookup "character" with
  | some _, some _, _ => .error (.conflict "offset" "line")
  | some _, _, some _ => .error (.conflict "offset" "character")
  | _, some _, none => .error (.incomplete "line" "character")
  | _, none, some _ => .error (.incomplete "character" "line")
  | some n, none, none => .ok (.offset ((number? (Nat.pow 2 64) false n).getD 0))
  | none, some l, some c =>
    .ok (.position ⟨(number? (Nat.pow 2 32) true l).getD 0, (number? (Nat.pow 2 32) true c).getD 0⟩)
  | none, none, none => .ok .textEnd

/-- What the given options ask for. -/
def ofGiven (given : Given) : Except UsageError Options := do
  return {
    file := given.lookup "file"
    target := ← targetOf given
    project := given.lookup "project"
    config := given.lookup "config"
    format := ((given.lookup "format").bind Format.ofLabel?).getD .json
    logsToFile := (given.lookup "log-file").isSome }

/-- Whether an argument cannot be the value of an option before it. -/
def looksLikeOption (arg : String) : Bool := arg != "-" && arg.toList.head? == some '-'

/-- The name and the value of an option that is written in one argument. -/
def splitOption (arg : List Char) : String × Option String :=
  match arg.dropWhile (· != '=') with
  | [] => (String.ofList arg, none)
  | _ :: value => (String.ofList (arg.takeWhile (· != '=')), some (String.ofList value))

/-- What a single argument is. -/
inductive Argument
  | help (long : Bool)
  | version
  /-- An option that has no value. -/
  | flag (name : String)
  /-- An option that has a value, which may be the next argument. -/
  | option (name : String) (value : Option String)
  /-- The end of the options. -/
  | optionsEnd
  | wrong (error : UsageError)

/-- Reads a single argument. -/
def readArgument (arg : String) : Argument :=
  match arg.toList with
  | ['-', '-'] => .optionsEnd
  | '-' :: '-' :: cs =>
    match splitOption cs with
    | ("help", none) => .help true
    | ("version", none) => .version
    | (name, value) =>
      if flags.contains name then
        if value.isSome then .wrong (.needlessValue name) else .flag name
      else if valued.contains name then .option name value
      else .wrong (.unexpected arg)
  | '-' :: 'h' :: _ => .help false
  | '-' :: 'V' :: _ => .version
  | _ => .wrong (.unexpected arg)

/-- Reads the arguments after those that gave the options `given`. The first one
    is the value of the option `open?`, if there is one. -/
def parseFrom (given : Given) (open? : Option String) : List String → Except UsageError Command
  | [] =>
    match open? with
    | some name => .error (.missingValue name)
    | none => (ofGiven given).map .complete
  | arg :: args =>
    match open? with
    | some name =>
      if looksLikeOption arg then .error (.missingValue name)
      else (give given name arg).bind fun given => parseFrom given none args
    | none =>
      match readArgument arg with
      | .help long => .ok (.help long)
      | .version => .ok .version
      | .flag name => (give given name "").bind fun given => parseFrom given none args
      | .option name (some value) =>
        (give given name value).bind fun given => parseFrom given none args
      | .option name none =>
        if (given.lookup name).isSome then .error (.repeated name)
        else parseFrom given (some name) args
      | .optionsEnd =>
        match args with
        | [] => (ofGiven given).map .complete
        | next :: _ => .error (.unexpected next)
      | .wrong e => .error e

/-- What a command line asks for. -/
def parse (args : List String) : Except UsageError Command := parseFrom [] none args

end Options

end Typeahead
