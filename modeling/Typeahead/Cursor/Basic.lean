import Typeahead.Config.Basic
import Typeahead.Text.Lines
import Typeahead.Tree.Find
import Typeahead.Tree.Marker
import Typeahead.Tree.Reader

/-!
# Cursors

A cursor is a place in a tree: the node it belongs to, its offset, and what has
been typed of that node so far. Hosts either name the place in the text as it
is, or have the placeholder put in there first.
-/

namespace Typeahead

/-- What keeps a request from being answered. -/
inductive RequestError
  | offsetOutOfBounds (offset length : Nat)
  | positionOutOfBounds (position : Position)
  deriving DecidableEq, Repr

/-- The wording of an error. -/
def RequestError.message : RequestError → String
  | offsetOutOfBounds offset length =>
    "cursor offset " ++ toString offset ++ " is outside the source (" ++
      toString length ++ " bytes)"
  | positionOutOfBounds p =>
    "cursor position " ++ toString p.line ++ ":" ++ toString p.character ++
      " is outside the document"

/-- The text with the placeholder put in at `offset`. -/
def insertAt (cs : List Char) (offset : Nat) (placeholder : List Char) :
    Except RequestError (List Char) :=
  match splitAtByte? offset cs with
  | some (s, t) => .ok (s ++ placeholder ++ t)
  | none => .error (.offsetOutOfBounds offset (byteLength cs))

/-- A place in a tree where something is typed. -/
structure Cursor where
  location : Location
  offset : Nat
  /-- What has been typed, without the placeholder. -/
  typed : String

namespace Cursor

variable (t : Tree) (config : Config)

/-- What has been typed of a word when the cursor is at `offset`: the word
    without the placeholder, or else its part before the cursor. -/
def typedOf (n : Node) (offset : Nat) : List Char :=
  if n.kind.isWord then
    let cs := t.chars n
    if config.containsPlaceholder cs then config.stripPlaceholder cs
    else
      match splitAtByte? (min (offset - n.span.start) (byteLength cs)) cs with
      | some (s, _) => s
      | none => cs
  else []

/-- The cursor at a given location. -/
def ofLocation (l : Location) (offset : Nat) : Cursor :=
  ⟨l, offset, String.ofList (typedOf t config l.node offset)⟩

/-- The cursor at a given offset. -/
def locate (offset : Nat) : Except RequestError Cursor :=
  if isBoundary t.source offset then
    match t.findAt? offset with
    | some l => .ok (ofLocation t config l offset)
    | none => .error (.offsetOutOfBounds offset t.length)
  else .error (.offsetOutOfBounds offset t.length)

/-- The tree of a text with the placeholder put in at `offset`, and the cursor
    there. -/
def inSource (cs : List Char) (offset : Nat) : Except RequestError (Tree × Cursor) := do
  let t := Tree.read (← insertAt cs offset config.placeholder.toList)
  return (t, ← locate t config offset)

/-- The slot of the cursor among the forms of a node: the index of the form that
    holds the cursor, or else the number of forms that end before it. -/
def ordinalAmong (c : Cursor) (forms : List Node) : Nat :=
  match forms.findIdx? (c.location.isWithin ·) with
  | some i => i
  | none => forms.countP (·.span.stop ≤ c.offset)

/-- The slot of the cursor among the active forms of a node. -/
def ordinal (c : Cursor) (n : Node) : Nat := c.ordinalAmong n.activeForms

end Cursor

end Typeahead
