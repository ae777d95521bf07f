import Typeahead.Tree.Builder
import Typeahead.Tree.Lexeme

/-!
# Reading

Every text is read into a tree, lexeme by lexeme. Where the nesting of a text
is broken, the tree still keeps all of it:

* a collection, a string or a comment without an end reaches to the end of the
  text;
* a closing delimiter ends the innermost collection that it closes, and with it
  all collections inside that one, which stay without a delimiter of their own;
* a closing delimiter that closes nothing becomes a node for the error;
* a sigil without a form after it ends where the node around it ends.
-/

namespace Typeahead

namespace Builder

/-- Closes the quoted forms for which the form that ends at `stop` was the
    missing one. -/
def settle (stop : Nat) (b : Builder) : Builder :=
  go b.top b.below
where
  /-- The same for the frames `top` and `below`. -/
  go (top : Frame) : List Frame → Builder
    | [] => { b with top, below := [] }
    | f :: fs =>
      if top.kind = .quoted then go (f.add (top.close stop)) fs
      else { b with top, below := f :: fs }

/-- Whether the delimiter `d` closes an open collection. -/
def closes (b : Builder) (d : Char) : Bool :=
  (b.top :: b.below).any (·.kind.closer? == some d)

/-- Closes at `stop` the nodes inside the innermost collection that the
    delimiter `d` closes. -/
def unwindTo (d : Char) (stop : Nat) (b : Builder) : Builder :=
  go b.top b.below
where
  /-- The same for the frames `top` and `below`. -/
  go (top : Frame) : List Frame → Builder
    | [] => { b with top, below := [] }
    | f :: fs =>
      if top.kind.closer? = some d then { b with top, below := f :: fs }
      else go (f.add (top.close stop)) fs

/-- Adds the lexeme `l`, which starts at the offset `start`. -/
def place (b : Builder) (start : Nat) (l : Lexeme) : Builder :=
  let stop := start + byteLength l.text
  match l.shape with
  | .blank => b.token .whitespace ⟨start, stop⟩
  | .comment => b.token .lineComment ⟨start, stop⟩
  | .marker => b.token .formComment ⟨start, stop⟩
  | .opener kind => (b.start kind start).token .openDelim ⟨start, stop⟩
  | .sigil => (b.start .quoted start).token .sigil ⟨start, stop⟩
  | .atom kind => (b.token kind ⟨start, stop⟩).settle stop
  | .closer d =>
    if b.closes d then
      (((b.unwindTo d start).token .closeDelim ⟨start, stop⟩).finish stop).settle stop
    else b.token .error ⟨start, stop⟩

/-- Adds lexemes one after the other, from the offset `start` on. -/
def placeAll (b : Builder) (start : Nat) : List Lexeme → Builder
  | [] => b
  | l :: ls => (b.place start l).placeAll (start + byteLength l.text) ls

end Builder

/-- The tree of a text. -/
def Tree.read (cs : List Char) : Tree := ((Builder.new cs).placeAll 0 (lex cs)).toTree

end Typeahead
