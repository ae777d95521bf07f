import Typeahead.Text.Quoted
import Typeahead.Tree.Node

/-!
# Dumps

A tree as text: a line for every node, indented by its depth, with its kind and
span and, if it has no children, its text in quotes.
-/

namespace Typeahead

/-- The line of a node at a given depth. -/
def Tree.dumpLine (t : Tree) (depth : Nat) (n : Node) : List Char :=
  List.replicate (2 * depth) ' ' ++ n.label.toList ++
    (if n.children.isEmpty then ' ' :: quote (t.chars n) else []) ++ ['\n']

mutual

/-- A node at a given depth and all nodes below it, each with its depth. -/
def Node.withDepths (depth : Nat) : Node → List (Nat × Node)
  | ⟨id, kind, span, children⟩ =>
    (depth, ⟨id, kind, span, children⟩) :: Node.withDepthsAll (depth + 1) children

/-- The nodes of the trees of a list, all at a given depth, each with its depth. -/
def Node.withDepthsAll (depth : Nat) : List Node → List (Nat × Node)
  | [] => []
  | n :: ns => n.withDepths depth ++ Node.withDepthsAll depth ns

end

/-- The dump of a tree. -/
def Tree.dump (t : Tree) : String :=
  String.ofList ((t.root.withDepths 0).flatMap fun (depth, n) => t.dumpLine depth n)

end Typeahead
