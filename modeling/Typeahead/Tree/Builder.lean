import Typeahead.Tree.Node

/-!
# Building trees

A tree is built from left to right. The builder keeps the nodes that are still
open, innermost first, with the children they have so far; a new node becomes
the last child of the innermost open one. The root is open to the end, and what
is open at the end is closed where the source ends.
-/

namespace Typeahead

/-- A node that is still open. -/
structure Frame where
  id : Nat
  kind : Kind
  start : Nat
  /-- The children so far, last one first. -/
  children : List Node

namespace Frame

/-- The frame with one more child. -/
def add (f : Frame) (n : Node) : Frame := { f with children := n :: f.children }

/-- The node that the frame becomes when it is closed at `stop`. -/
def close (f : Frame) (stop : Nat) : Node := ⟨f.id, f.kind, ⟨f.start, stop⟩, f.children.reverse⟩

/-- The outermost node, when the frame `top` inside the frames `below` and all
    of these are closed at `stop`. -/
def closeAll (stop : Nat) (top : Frame) : List Frame → Node
  | [] => top.close stop
  | f :: fs => closeAll stop (f.add (top.close stop)) fs

end Frame

/-- A tree under construction. -/
structure Builder where
  source : List Char
  /-- The innermost open node. -/
  top : Frame
  /-- The open nodes around it, innermost first. -/
  below : List Frame
  /-- The number of the next node. -/
  next : Nat

namespace Builder

/-- A tree of which only the root is there. -/
def new (source : List Char) : Builder :=
  { source, top := ⟨0, .root, 0, []⟩, below := [], next := 1 }

/-- Opens a node at the offset `start`. -/
def start (b : Builder) (kind : Kind) (start : Nat) : Builder :=
  { b with top := ⟨b.next, kind, start, []⟩, below := b.top :: b.below, next := b.next + 1 }

/-- Closes the innermost open node at the offset `stop`; the root stays open. -/
def finish (b : Builder) (stop : Nat) : Builder :=
  match b.below with
  | [] => b
  | f :: fs => { b with top := f.add (b.top.close stop), below := fs }

/-- Adds a node without children. -/
def token (b : Builder) (kind : Kind) (span : Span) : Builder :=
  { b with top := b.top.add ⟨b.next, kind, span, []⟩, next := b.next + 1 }

/-- The number of open nodes besides the root. -/
def depth (b : Builder) : Nat := b.below.length

/-- The tree, with everything closed at the end of the source. -/
def toTree (b : Builder) : Tree :=
  ⟨b.source, Frame.closeAll (byteLength b.source) b.top b.below⟩

/-- A step of a construction. -/
inductive Step
  | start (kind : Kind) (start : Nat)
  | finish (stop : Nat)
  | token (kind : Kind) (span : Span)
  deriving DecidableEq, Repr

/-- Takes a step. -/
def apply (b : Builder) : Step → Builder
  | .start kind start => b.start kind start
  | .finish stop => b.finish stop
  | .token kind span => b.token kind span

/-- The number of the node that a step creates or closes; closing the root
    gives its own number. -/
def touched (b : Builder) : Step → Nat
  | .start .. | .token .. => b.next
  | .finish _ => b.top.id

/-- The tree that the steps build over a source. -/
def build (source : List Char) (steps : List Step) : Tree :=
  (steps.foldl apply (new source)).toTree

end Builder

end Typeahead
