import Typeahead.Candidate.Item
import Typeahead.Candidate.Ranking
import Typeahead.Candidate.Sink
import Typeahead.Engine.Cache
import Typeahead.Engine.Offer

/-!
# Engines

An engine answers requests: what can be typed at a cursor, best first. Every
request has an answer, which is a fixed one if the project breaks down.
-/

namespace Typeahead

/-- What answers requests. -/
structure Engine where
  config : Config
  project : Option Project
  criteria : Criteria

namespace Engine

/-- The engine with the given settings and no project. -/
def new (config : Config) : Engine := ⟨config, none, { maxResults := config.maxResults }⟩

variable (e : Engine)

/-- The answer when nothing is known about the cursor. -/
def fallback : List Candidate :=
  Candidate.rank none e.criteria ((Sink.new "").pushAll Offer.fallback).candidates

/-- The summaries of the files of the project, without the file `currentFile`. -/
def summaries (cache : Cache) (currentFile : Option String) : Option (List Summary) × Cache :=
  match e.project with
  | some p => cache.projectSummaries p e.config.maxProjectFiles e.config.maxFileText currentFile
  | none => (some [], cache)

/-- The call shape of a function: that of its binding, or else that of its entry
    in the catalogue, or of a definition of the project. -/
def signatureOf (cache : Cache) (function : String) (scope : Scope) (summaries : List Summary) :
    Option String × Cache :=
  match scope.get? function with
  | some b => (b.signature, cache)
  | none =>
    let entry := Entry.ofName? function
    let defined := (summaries.flatMap (·.definitions)).find? (·.name == function)
    let inProject := defined.bind (·.signature)
    let (known, cache) := cache.knows function (entry.isSome || inProject.isSome)
    if known then
      cache.signature function ((entry.bind (Candidate.nonempty? ·.signature)) <|> inProject)
    else (none, cache)

/-- A candidate whose hint tells how often it was accepted. -/
def withUsage (cache : Cache) (c : Candidate) : Candidate :=
  match cache.usageCount c.text with
  | 0 => c
  | n =>
    if c.isRemark then c
    else
      let used := "used " ++ toString n ++ "x"
      match c.hint with
      | some hint => c.withHint (hint ++ " (" ++ used ++ ")")
      | none => c.withHint used

/-- The answer made of the given candidates. -/
def answer (cache : Cache) (context : Context) (cs : List Candidate) : List Candidate :=
  let kept := ((Sink.new context.typed).pushAll cs).candidates
  Candidate.rank context.called e.criteria (kept.map (withUsage cache))

/-- Whether the cursor is in a string or a comment, where nothing can be
    completed outside of a namespace declaration. -/
def isMute (c : Cursor) (slot : Slot) : Bool :=
  let k := c.location.node.kind
  (k == .string || k == .lineComment) &&
    match slot with
    | .inNamespace _ => false
    | _ => true

/-- The call shape that matters in a slot: that of the function of which an
    argument is typed. -/
def slotSignature (cache : Cache) (t : Tree) (c : Cursor) (slot : Slot)
    (summaries : List Summary) : Option String × Cache :=
  match slot with
  | .argument function _ =>
    signatureOf cache function (t.scopeAt e.config c summaries) summaries
  | _ => (none, cache)

/-- The answer for a cursor in the file `currentFile`. -/
def complete (cache : Cache) (t : Tree) (c : Cursor) (currentFile : Option String) :
    List Candidate × Cache :=
  let context := Context.ofCursor t e.config c
  if isMute c context.slot then ([], cache)
  else
    let (found, cache) :=
      if context.slot.needsProject then e.summaries cache currentFile else (some [], cache)
    match found with
    | none => (e.fallback, cache)
    | some summaries =>
      let (signature, cache) := e.slotSignature cache t c context.slot summaries
      let cs := Offer.atCursor t e.config c context summaries signature
      (e.answer cache context cs, cache)

/-- The answer for a place in a text, where the placeholder is put in. -/
def completeSource (cache : Cache) (cs : List Char) (offset : Nat) (currentFile : Option String) :
    Except RequestError (List Candidate × Cache) := do
  let (t, c) ← Cursor.inSource e.config cs offset
  return e.complete cache t c currentFile

/-- The answer for a position in a document, as items. -/
def completeAt (cache : Cache) (cs : List Char) (p : Position) :
    Except RequestError (List Item × Cache) := do
  match p.toOffset? cs with
  | none => .error (.positionOutOfBounds p)
  | some offset =>
    let (candidates, cache) ← e.completeSource cache cs offset none
    return (Candidate.toItems candidates, cache)

end Engine

end Typeahead
