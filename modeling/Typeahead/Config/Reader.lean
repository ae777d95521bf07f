import Typeahead.Config.Basic
import Typeahead.Json.Value

/-!
# Reading settings

Settings are read from a JSON document: an object whose members are settings by
name, or a list of their values in order. Settings that are left out keep their
defaults, and members with other names are skipped. The first fault of the
document in the order of its text is the one reported, and only a document
without faults is searched for invalid settings.
-/

namespace Typeahead

/-- Why settings could not be read. -/
inductive ConfigError
  | malformed (fault : JsonFault)
  | invalid (setting : InvalidSetting)
  deriving DecidableEq, Repr

/-- A setting of a document: its name, and the reader of its value, which gives
    the change that the value makes. -/
structure Setting where
  name : String
  read : JsonReader (Config → Config)

namespace Setting

/-- A setting whose value is read by `read`. -/
def of {α : Type} (name : String) (read : JsonReader α) (set : α → Config → Config) : Setting :=
  ⟨name, fun cs => (read cs).map fun (a, rest) => (set a, rest)⟩

/-- A setting whose value is a number. -/
def nat (name : String) (set : Nat → Config → Config) : Setting := of name JsonValue.readNat set

/-- All settings in order. -/
def all : List Setting :=
  [of "placeholder" JsonValue.readText fun s c => { c with placeholder := s },
   nat "max_traversal_depth" fun n c => { c with maxTraversalDepth := n },
   nat "max_bindings" fun n c => { c with maxBindings := n },
   nat "max_sibling_definitions" fun n c => { c with maxSiblingDefinitions := n },
   nat "max_project_files" fun n c => { c with maxProjectFiles := n },
   nat "max_definitions_per_file" fun n c => { c with maxDefinitionsPerFile := n },
   nat "max_file_text" fun n c => { c with maxFileText := n },
   nat "max_vector_text" fun n c => { c with maxVectorText := n },
   nat "namespace_window" fun n c => { c with namespaceWindow := n },
   of "max_results" JsonValue.readNat? fun n c => { c with maxResults := n }]

end Setting

namespace Config

/-- Reads the colon between the name and the value of a member. -/
def readColon : JsonReader Unit := fun cs =>
  match skipJsonBlanks cs with
  | ':' :: cs => .ok ((), cs)
  | [] => .error (.next .endInObject [])
  | cs => .error (.next .colonMissing cs)

/-- Reads the name of the next member, if the object is not over. No comma comes
    before the first one. -/
def readName? (isFirst : Bool) : JsonReader (Option String) := fun cs =>
  let readName := fun cs => (JsonStr.read cs).map fun (s, rest) => (some (String.ofList s), rest)
  match skipJsonBlanks cs with
  | [] => .error (.next .endInObject [])
  | '\x7d' :: cs => .ok (none, cs)
  | c :: cs =>
    if isFirst then
      if c = '"' then readName cs else .error (.next .keyMissing (c :: cs))
    else if c = ',' then
      match skipJsonBlanks cs with
      | '"' :: cs => readName cs
      | '\x7d' :: cs => .error (.next .trailingComma ('\x7d' :: cs))
      | [] => .error (.next .endInValue [])
      | cs => .error (.next .keyMissing cs)
    else .error (.next .objectEndMissing (c :: cs))

/-- The fault of a member that was there before, `cs` being left after its
    name. -/
def repeated (name : String) (cs : List Char) : JsonFault :=
  match skipJsonBlanks cs with
  | '\x7d' :: cs => .before (.repeatedField name) cs
  | cs => .before (.repeatedField name) cs

/-- Reads the members of an object after those with the names `seen`, in at most
    `n` steps. -/
def readMembers : Nat → List String → Bool → Config → JsonReader Config
  | 0, _, _, c, cs => .ok (c, cs)
  | n + 1, seen, isFirst, c, cs => do
    match ← readName? isFirst cs with
    | (none, cs) => return (c, cs)
    | (some name, cs) =>
      match Setting.all.find? (·.name == name) with
      | none =>
        let ((), cs) ← readColon cs
        let ((), cs) ← JsonValue.skip cs
        readMembers n seen false c cs
      | some setting =>
        if seen.contains name then .error (repeated name cs)
        else
          let ((), cs) ← readColon cs
          let (change, cs) ← setting.read cs
          readMembers n (name :: seen) false (change c) cs

/-- Goes to the next value of a list, if the list is not over. No comma comes
    before the first one. -/
def readNext (isFirst : Bool) : JsonReader Bool := fun cs =>
  match skipJsonBlanks cs with
  | [] => .error (.next .endInList [])
  | ']' :: cs => .ok (false, ']' :: cs)
  | c :: cs =>
    if isFirst then .ok (true, c :: cs)
    else if c = ',' then
      match skipJsonBlanks cs with
      | ']' :: cs => .error (.next .trailingComma (']' :: cs))
      | [] => .error (.next .endInValue [])
      | cs => .ok (true, cs)
    else .error (.next .listEndMissing (c :: cs))

/-- Reads the end of a list. -/
def readListEnd : JsonReader Unit := fun cs =>
  match skipJsonBlanks cs with
  | [] => .error (.next .endInList [])
  | ']' :: cs => .ok ((), cs)
  | ',' :: cs =>
    match skipJsonBlanks cs with
    | ']' :: cs => .error (.next .trailingComma (']' :: cs))
    | cs => .error (.next .trailingCharacters cs)
  | cs => .error (.next .trailingCharacters cs)

/-- Reads the values of a list as those of the given settings. -/
def readValues (isFirst : Bool) (c : Config) : List Setting → JsonReader Config
  | [], cs => (readListEnd cs).map fun ((), rest) => (c, rest)
  | setting :: settings, cs => do
    match ← readNext isFirst cs with
    | (false, cs) => (readListEnd cs).map fun ((), rest) => (c, rest)
    | (true, cs) =>
      let (change, cs) ← setting.read cs
      readValues false (change c) settings cs

/-- Reads settings that a text starts with. -/
def readStart : JsonReader Config := fun cs =>
  match skipJsonBlanks cs with
  | [] => .error (.next .endInValue [])
  | '[' :: cs => readValues true {} Setting.all cs
  | '\x7b' :: cs => readMembers (cs.length + 1) [] true {} cs
  | cs => .error (JsonValue.wrongType "struct CompletionConfig" cs)

/-- The settings that a document holds. -/
def readText (cs : List Char) : Except JsonFault Config := do
  let (c, rest) ← readStart cs
  match skipJsonBlanks rest with
  | [] => return c
  | rest => .error (.next .trailingCharacters rest)

/-- The settings that a document holds, if they are valid. -/
def read (cs : List Char) : Except ConfigError Config := do
  let c ← (readText cs).mapError .malformed
  match c.invalid? with
  | some e => .error (.invalid e)
  | none => return c

end Config

end Typeahead
