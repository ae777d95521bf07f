import Typeahead.Tree.Location

/-!
# Markers

The marker `#_` deactivates the form after it. Markers stack: a run of `n`
adjacent markers deactivates the next `n` forms of the *sequence* after it,
where a sequence is a maximal run of sibling forms with only blanks between
them. A comment, a delimiter or another marker ends a sequence.

What a marker does to a node depends only on the kinds of the siblings before
it, so the rule is stated on kinds, nearest sibling first (`deactivates`).
-/

namespace Typeahead

/-- Whether a sequence of forms goes on across a sibling of the kind `k`. -/
def continuesSequence (k : Kind) : Bool := k == .whitespace || k.isForm

/-- The number of adjacent markers in front of the sequence that goes on after
    siblings of the kinds `before`, nearest first. -/
def markersBefore (before : List Kind) : Nat :=
  (((before.dropWhile continuesSequence).filter (· != .whitespace)).takeWhile
    (· == .formComment)).length

/-- The number of forms in the sequence, up to and including a node of the kind
    `k` after siblings of the kinds `before`. -/
def sequenceOrdinal (before : List Kind) (k : Kind) : Nat :=
  (before.takeWhile continuesSequence).countP Kind.isForm + if k.isForm then 1 else 0

/-- Whether the markers among siblings of the kinds `before`, nearest first,
    deactivate a node of the kind `k` after them. -/
def deactivates (before : List Kind) (k : Kind) : Bool :=
  0 < markersBefore before && sequenceOrdinal before k ≤ markersBefore before

/-- Whether markers deactivate the node at a location itself. -/
def Location.isDeactivated (l : Location) : Bool :=
  deactivates (l.before.map (·.kind)) l.node.kind

/-- The forms among siblings that follow others of the kinds `before`, each with
    whether it is deactivated. -/
def judgeForms (before : List Kind) : List Node → List (Node × Bool)
  | [] => []
  | n :: ns =>
    let rest := judgeForms (n.kind :: before) ns
    if n.kind.isForm then (n, deactivates before n.kind) :: rest else rest

namespace Node

/-- The forms of a node, each with whether it is deactivated. -/
def judgedForms (n : Node) : List (Node × Bool) := judgeForms [] n.children

/-- The forms of a node that no marker deactivates. -/
def activeForms (n : Node) : List Node :=
  (n.judgedForms.filter fun (_, off) => !off).map Prod.fst

end Node

end Typeahead
