import Typeahead.Text.Decoding
import Typeahead.Text.WordChar
import Typeahead.Tree.Location

/-!
# Markers found in the text

A tree may have lost the markers inside a vector although its text still shows
them. Then the text is scanned instead: every marker before a place is pending
until the next name or keyword uses it up, and a form is deactivated if a
marker is pending where it starts.
-/

namespace Typeahead

/-- Whether `c` may stand inside a name or a keyword. -/
def isNameChar (c : Char) : Bool := isWordChar c || c == '-'

/-- Whether `c` is a letter from a to z, of either case. -/
def isAsciiLetter (c : Char) : Bool := ('a' ≤ c && c ≤ 'z') || ('A' ≤ c && c ≤ 'Z')

/-- The offsets of the markers, names and keywords of a text that starts at the
    offset `start`, each with whether it is a marker. If `inWord`, a name goes
    on at the start of the text. -/
def scanMarkers (inWord : Bool) (start : Nat) : List Char → List (Nat × Bool)
  | [] => []
  | c :: cs =>
    let next := start + c.utf8Size
    if inWord && isNameChar c then scanMarkers true next cs
    else if c == '#' && cs.head? == some '_' then (start, true) :: scanMarkers false next cs
    else if isAsciiLetter c || (c == ':' && cs.head?.any isNameChar) then
      (start, false) :: scanMarkers true next cs
    else scanMarkers false next cs

/-- Whether one of `pending` markers, or of the markers among the given items,
    is not used up where the name or keyword at `offset` starts. -/
def isPendingAmong (offset pending : Nat) : List (Nat × Bool) → Bool
  | [] => false
  | (start, true) :: items =>
    isPendingAmong offset (if start < offset then pending + 1 else pending) items
  | (start, false) :: items =>
    if offset ≤ start then start == offset && 0 < pending
    else isPendingAmong offset (pending - 1) items

/-- Whether a name or keyword starts at `offset` in a text while a marker is
    pending. -/
def isPendingAt (cs : List Char) (offset : Nat) : Bool :=
  isPendingAmong offset 0 (scanMarkers false 0 cs)

/-- A byte string with blanks in place of the bytes from `start` up to `stop`. -/
def blankOut (bs : List UInt8) (start stop : Nat) : List UInt8 :=
  bs.mapIdx fun i b => if start ≤ i ∧ i < stop then 32 else b

/-- The text of a node with blanks in place of the strings and comments that it
    holds. -/
def Tree.maskedChars (t : Tree) (n : Node) : List Char :=
  let base := n.span.start
  let mask := fun bs (c : Node) =>
    if c.kind = .string ∨ c.kind = .lineComment then
      blankOut bs (c.span.start - base) (c.span.stop - base)
    else bs
  decodeLossy (n.children.foldl mask (toBytes (t.chars n)))

/-- Whether a form directly inside a vector is deactivated by a marker that only
    the text of the vector shows. -/
def Tree.isMarkedInText (t : Tree) (l : Location) : Bool :=
  match l.above with
  | [] => false
  | v :: _ =>
    v.kind == .vector && !v.children.any (·.kind == .formComment) &&
      v.span.start ≤ l.node.span.start &&
      isPendingAt (t.maskedChars v) (l.node.span.start - v.span.start)

end Typeahead
