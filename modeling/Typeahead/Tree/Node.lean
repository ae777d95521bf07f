import Typeahead.Text.Bytes
import Typeahead.Tree.Kind
import Typeahead.Tree.Span

/-!
# Source trees

A source tree keeps every byte of its source: besides the forms, also blanks,
comments, delimiters and markers are nodes. Each node has a number, its *id*,
which counts the nodes in the order of their creation; nodes of one tree are
told apart by it.

A tree only refers to its source by spans. A node whose span does not fall on
boundaries of the source has the empty text.
-/

namespace Typeahead

/-- A node with everything below it. -/
structure Node where
  id : Nat
  kind : Kind
  span : Span
  children : List Node
  deriving Repr

/-- A source together with the node for the whole of it. -/
structure Tree where
  source : List Char
  root : Node

/-- What a node was expected to have and does not. -/
inductive TreeError
  | missingNode (id : Nat)
  | childOutOfRange (parent index count : Nat)
  | unexpectedKind (id : Nat) (expected found : Kind)
  deriving DecidableEq, Repr

/-- How messages refer to the node with a given number. -/
def nodeReference (id : Nat) : String := "node NodeId(" ++ toString id ++ ")"

/-- The wording of an error. -/
def TreeError.message : TreeError → String
  | missingNode id => nodeReference id ++ " does not exist in this tree"
  | childOutOfRange parent index count =>
    nodeReference parent ++ " has no form at index " ++ toString index ++
      " (it has " ++ toString count ++ ")"
  | unexpectedKind id expected found =>
    nodeReference id ++ " is a " ++ found.label ++ ", expected a " ++ expected.label

namespace Node

/-- The children that are forms. -/
def forms (n : Node) : List Node := n.children.filter (·.kind.isForm)

/-- The form at an index among the forms of the node. -/
def nthForm (n : Node) (index : Nat) : Except TreeError Node :=
  match n.forms[index]? with
  | some form => .ok form
  | none => .error (.childOutOfRange n.id index n.forms.length)

/-- The first form, which a call calls. -/
def head? (n : Node) : Option Node := n.forms.head?

/-- Whether the last child is a closing delimiter. -/
def isClosed (n : Node) : Bool := n.children.getLast?.any (·.kind == .closeDelim)

/-- The node itself, if it has the expected kind. -/
def expectKind (n : Node) (expected : Kind) : Except TreeError Node :=
  if n.kind = expected then .ok n else .error (.unexpectedKind n.id expected n.kind)

/-- The kind of the node and its span. -/
def label (n : Node) : String := n.kind.label ++ "@" ++ n.span.render

mutual

/-- The node and all nodes below it, each before its children and those before
    its later siblings. -/
def preorder : Node → List Node
  | ⟨id, kind, span, children⟩ => ⟨id, kind, span, children⟩ :: preorderAll children

/-- The nodes of a list of trees, tree by tree. -/
def preorderAll : List Node → List Node
  | [] => []
  | n :: ns => n.preorder ++ preorderAll ns

end

end Node

namespace Tree

/-- The characters that a node covers. -/
def chars (t : Tree) (n : Node) : List Char := slice t.source n.span.start n.span.stop

/-- The text that a node covers. -/
def text (t : Tree) (n : Node) : String := String.ofList (t.chars n)

/-- The number of bytes of the source. -/
def length (t : Tree) : Nat := byteLength t.source

/-- All nodes, each before its children. -/
def nodes (t : Tree) : List Node := t.root.preorder

end Tree

end Typeahead
