import Typeahead.Tree.Location

/-!
# The node at an offset

A cursor mostly stands between two nodes. It belongs to the word that it
touches, and else to the innermost node around it. A collection is around the
cursor only from after its start on; one without a closing delimiter also is
where it ends.
-/

namespace Typeahead

namespace Node

/-- Whether a cursor at `offset` is inside the node. -/
def isAround (n : Node) (offset : Nat) : Bool :=
  if n.kind.isNested then
    n.span.start < offset &&
      (n.span.contains offset || (!n.isClosed && n.span.stop == offset))
  else n.span.contains offset

mutual

/-- The location of the node below `n`, which `above` encloses, that a cursor at
    `offset` belongs to, or of `n` itself. -/
def findAt (offset : Nat) (above : List Node) : Node → Location
  | ⟨id, kind, span, children⟩ =>
    let n : Node := ⟨id, kind, span, children⟩
    match children.find? fun c => c.kind.isWord && c.span.touches offset with
    | some word => ⟨word, n :: above⟩
    | none => (findAround? offset (n :: above) children).getD ⟨n, above⟩

/-- The location that a cursor at `offset` belongs to in the first of the given
    nodes, all enclosed by `above`, that is around it. -/
def findAround? (offset : Nat) (above : List Node) : List Node → Option Location
  | [] => none
  | c :: cs =>
    if c.isAround offset then
      some (if c.kind.isNested then c.findAt offset above else ⟨c, above⟩)
    else findAround? offset above cs

end

end Node

/-- The location that a cursor at `offset` belongs to; none past the end of the
    source. -/
def Tree.findAt? (t : Tree) (offset : Nat) : Option Location :=
  if offset ≤ t.length then some (t.root.findAt offset []) else none

end Typeahead
