import Typeahead.Tree.Node

/-!
# Locations

A node does not know what it is part of. A *location* is a node together with
the nodes that enclose it, from its parent up to the root; it answers the
questions about a node's surroundings.
-/

namespace Typeahead

/-- A node of a tree and its place there. -/
structure Location where
  node : Node
  /-- The nodes enclosing the node, innermost first. -/
  above : List Node

namespace Location

/-- The location of the parent. -/
def parent? (l : Location) : Option Location :=
  match l.above with
  | [] => none
  | p :: ps => some ⟨p, ps⟩

/-- The locations of a list of nodes each of which encloses the one before. -/
def chain : List Node → List Location
  | [] => []
  | p :: ps => ⟨p, ps⟩ :: chain ps

/-- The locations of the enclosing nodes, innermost first. -/
def ancestors (l : Location) : List Location := chain l.above

/-- The location itself and those of the enclosing nodes. -/
def selfAndAncestors (l : Location) : List Location := l :: l.ancestors

/-- The locations of the children. -/
def children (l : Location) : List Location := l.node.children.map fun n => ⟨n, l.node :: l.above⟩

/-- The siblings before the node, nearest first. -/
def before (l : Location) : List Node :=
  match l.above with
  | [] => []
  | p :: _ => (p.children.takeWhile (·.id != l.node.id)).reverse

/-- Whether the node is `n` or lies below it. -/
def isWithin (l : Location) (n : Node) : Bool :=
  l.node.id == n.id || l.above.any (·.id == n.id)

/-- The index of the node among the forms of its parent, if it is a form. -/
def formIndex? (l : Location) : Option Nat :=
  if l.node.kind.isForm then
    l.above.head?.bind fun p => p.forms.findIdx? (·.id == l.node.id)
  else none

/-- The smallest form that the node is or lies in. -/
def enclosingForm? (l : Location) : Option Location :=
  l.selfAndAncestors.find? (·.node.kind.isForm)

end Location

mutual

/-- The locations of a node enclosed by `above` and of all nodes below it. -/
def Node.locations (above : List Node) : Node → List Location
  | ⟨id, kind, span, children⟩ =>
    ⟨⟨id, kind, span, children⟩, above⟩ ::
      Node.locationsAll (⟨id, kind, span, children⟩ :: above) children

/-- The locations of the trees of a list, all enclosed by `above`. -/
def Node.locationsAll (above : List Node) : List Node → List Location
  | [] => []
  | n :: ns => n.locations above ++ Node.locationsAll above ns

end

namespace Tree

/-- The locations of all nodes, each before those of its children. -/
def locations (t : Tree) : List Location := t.root.locations []

/-- The location of the node with a given number. -/
def locationOf (t : Tree) (id : Nat) : Except TreeError Location :=
  match t.locations.find? (·.node.id == id) with
  | some l => .ok l
  | none => .error (.missingNode id)

end Tree

end Typeahead
