import Typeahead.Proofs.Leaves

/-!
# Reading loses nothing

Every text has a tree, and every byte of the text is in exactly one token of it,
a node without children. The tokens follow each other without gaps, and so do the
children of every node that has some (`Tiles`).

* `tiles_of_covers`, `flatMap_chars_of_covers`: leaves that cover lexemes tile
  the text of the lexemes, and make it up;
* `Outcome.tiled`: wherever a node is closed, it ends where its last child ends;
* `lossless_read`: the tree of a text keeps the text.
-/

namespace Typeahead

/-- The nodes `ns` follow each other from the offset `start` to the offset
    `stop`: each begins where the one before ends. -/
def Tiles (start stop : Nat) : List Node → Prop
  | [] => start = stop
  | n :: ns => n.span.start = start ∧ Tiles n.span.stop stop ns

theorem tiles_append {start stop : Nat} {ms ns : List Node} :
    Tiles start stop (ms ++ ns) ↔ ∃ mid, Tiles start mid ms ∧ Tiles mid stop ns := by
  induction ms generalizing start with
  | nil => simp [Tiles]
  | cons m ms ih => simp [Tiles, ih, and_assoc]

theorem tiles_singleton {start stop : Nat} {n : Node} :
    Tiles start stop [n] ↔ n.span = ⟨start, stop⟩ := by
  obtain ⟨id, kind, ⟨a, z⟩, ns⟩ := n
  simp [Tiles]

namespace Node

/-- If the node has children, they fill it. -/
def Filled (n : Node) : Prop := n.children ≠ [] → Tiles n.span.start n.span.stop n.children

end Node

namespace Tree

/-- The nodes without children, in tree order; the root is none of them. -/
def tokens (t : Tree) : List Node := t.nodes.tail.filter (·.children.isEmpty)

/-- The tree keeps every byte of its source. -/
structure Lossless (t : Tree) : Prop where
  /-- The root covers the whole source. -/
  root_span : t.root.span = ⟨0, t.length⟩
  /-- The tokens follow each other from the start of the source to its end. -/
  tiles_tokens : Tiles 0 t.length t.tokens
  /-- No token is empty. -/
  lt_of_mem_tokens : ∀ n ∈ t.tokens, n.span.start < n.span.stop
  /-- No token begins or ends inside a character. -/
  isBoundary_of_mem_tokens : ∀ n ∈ t.tokens,
    isBoundary t.source n.span.start = true ∧ isBoundary t.source n.span.stop = true
  /-- The texts of the tokens make up the source. -/
  flatMap_chars_tokens : t.tokens.flatMap t.chars = t.source
  /-- The children of every node that has some fill it. -/
  filled_of_mem_nodes : ∀ n ∈ t.nodes, n.Filled

theorem tail_nodes (t : Tree) : t.nodes.tail = Node.preorderAll t.root.children := by
  obtain ⟨source, ⟨id, kind, span, ns⟩⟩ := t
  rw [nodes, Node.preorder]
  rfl

/-- The tokens of a tree are the nodes of its leaves. -/
theorem map_node_leaves (t : Tree) : t.leaves.map (·.node) = t.tokens := by
  rw [leaves_eq, List.map_map, tokens, tail_nodes, ← Node.map_node_locationsAll [t.root],
    List.filter_map]
  rfl

end Tree

/-! ### Leaves and lexemes -/

namespace Builder

section Covers

variable {start : Nat} {ls : List Lexeme} {leaves : List Leaf} {src : List Char}

theorem tiles_of_covers (h : Covers start ls leaves) :
    Tiles start (start + byteLength (ls.flatMap (·.text))) (leaves.map (·.node)) := by
  induction ls generalizing start leaves with
  | nil => rw [h]; rfl
  | cons l ls ih =>
    cases leaves with
    | nil => exact h.elim
    | cons leaf leaves =>
      obtain ⟨-, hspan, hcovers⟩ := h
      rw [List.flatMap_cons, byteLength_append, ← Nat.add_assoc, List.map_cons, Tiles, hspan]
      exact ⟨rfl, ih hcovers⟩

/-- A leaf that covers a lexeme is not empty and stands at boundaries. -/
theorem span_of_covers (h : Covers start ls leaves) (hls : ∀ l ∈ ls, l.Sound)
    (hsrc : StandsAt src start (ls.flatMap (·.text))) :
    ∀ leaf ∈ leaves, leaf.node.span.start < leaf.node.span.stop ∧
      isBoundary src leaf.node.span.start = true ∧ isBoundary src leaf.node.span.stop = true := by
  induction ls generalizing start leaves with
  | nil => rw [h]; exact fun leaf hleaf => absurd hleaf List.not_mem_nil
  | cons l ls ih =>
    cases leaves with
    | nil => exact h.elim
    | cons leaf leaves =>
      obtain ⟨-, hspan, hcovers⟩ := h
      rw [List.flatMap_cons] at hsrc
      obtain ⟨hhere, hrest⟩ := hsrc.append
      intro k hk
      rcases List.mem_cons.1 hk with rfl | hk
      · have hpos := byteLength_pos (hls l List.mem_cons_self).text_ne_nil
        rw [hspan]
        exact ⟨Nat.lt_add_of_pos_right hpos, hhere.isBoundary_start, hhere.isBoundary_stop⟩
      · exact ih hcovers (fun l h => hls l (List.mem_cons_of_mem _ h)) hrest k hk

theorem flatMap_chars_of_covers (h : Covers start ls leaves)
    (hsrc : StandsAt src start (ls.flatMap (·.text))) :
    leaves.flatMap (fun leaf => slice src leaf.node.span.start leaf.node.span.stop) =
      ls.flatMap (·.text) := by
  induction ls generalizing start leaves with
  | nil => rw [h]; rfl
  | cons l ls ih =>
    cases leaves with
    | nil => exact h.elim
    | cons leaf leaves =>
      obtain ⟨-, hspan, hcovers⟩ := h
      rw [List.flatMap_cons] at hsrc
      obtain ⟨hhere, hrest⟩ := hsrc.append
      rw [List.flatMap_cons, List.flatMap_cons, hspan, hhere.slice_eq, ih hcovers hrest]

end Covers

/-! ### Children -/

variable {b b' : Builder} {pos : Nat} {l : Lexeme}

/-- Each open node, given innermost first, is filled by its children up to where
    the next one inside it begins, the innermost one up to the offset `stop`. -/
def TiledTo : Nat → List Frame → Prop
  | stop, [] => stop = 0
  | stop, f :: fs => Tiles f.start stop f.children.reverse ∧ TiledTo f.start fs

/-- The open nodes are filled up to the offset `pos`, and the finished ones up
    to their ends. -/
def Tiled (pos : Nat) (b : Builder) : Prop := TiledTo pos b.frames ∧ Finished Node.Filled b

namespace Tiled

theorem token (h : Tiled pos b) (kind : Kind) (stop : Nat) :
    Tiled stop (b.token kind ⟨pos, stop⟩) := by
  refine ⟨⟨?_, h.1.2⟩, h.2.token fun hne => absurd rfl hne⟩
  rw [Builder.token, Frame.add, List.reverse_cons]
  exact tiles_append.2 ⟨pos, h.1.1, tiles_singleton.2 rfl⟩

theorem start (h : Tiled pos b) (kind : Kind) : Tiled pos (b.start kind pos) :=
  ⟨⟨rfl, h.1⟩, h.2.start kind pos⟩

theorem filled_close (h : Tiled pos b) : (b.top.close pos).Filled := fun _ => h.1.1

theorem finish (h : Tiled pos b) : Tiled pos (b.finish pos) := by
  have hfinished := h.2.finish h.filled_close
  refine ⟨?_, hfinished⟩
  rw [Builder.finish]
  split
  · exact h.1
  · next f fs hbelow =>
    obtain ⟨-, hf, hfs⟩ : TiledTo pos (b.top :: f :: fs) := hbelow ▸ h.1
    refine ⟨?_, hfs⟩
    rw [Frame.add, List.reverse_cons]
    exact tiles_append.2 ⟨_, hf, tiles_singleton.2 rfl⟩

theorem closing {p : Kind → Prop} (h : Tiled pos b) (hc : Closing pos p b b') : Tiled pos b' :=
  hc.keeps (fun _ _ _ hb => hb.finish) h

end Tiled

/-- Wherever a lexeme makes a node end, it ends where its last child ends. -/
theorem Outcome.tiled (h : Outcome b pos l b') (hb : Tiled pos b) :
    Tiled (pos + byteLength l.text) b' := by
  cases h with
  | filler _ => exact hb.token _ _
  | stray _ _ _ => exact hb.token _ _
  | opening _ => exact (hb.start _).token _ _
  | atom _ => exact (hb.token _ _).closing (closing_settle ..)
  | closing _ _ =>
    exact (((hb.closing (closing_unwindTo ..)).token _ _).finish).closing (closing_settle ..)

/-- If the open nodes are filled up to the end of the source, then so is the
    root, and all nodes of the tree are filled. -/
theorem Tiled.toTree (hb : Tiled (byteLength b.source) b) :
    b.toTree.root.span = ⟨0, byteLength b.source⟩ ∧ ∀ n ∈ b.toTree.nodes, n.Filled := by
  obtain ⟨b', hclosing, hnil, htree⟩ := exists_closing_toTree b
  have hb' := hb.closing hclosing
  have hroot : TiledTo (byteLength b.source) [b'.top] := hnil ▸ hb'.1
  have hstart : b'.top.start = 0 := hroot.2
  rw [htree]
  refine ⟨?_, hb'.2.close hb'.filled_close⟩
  rw [Frame.close, hstart]

theorem tiled_reading (cs : List Char) : Tiled (byteLength cs) (reading cs) := by
  refine reading_induction (P := Tiled) ⟨⟨rfl, rfl⟩, ?_⟩ fun _ _ _ _ hb _ _ h => h.tiled hb
  intro f hf m hm
  rw [List.mem_singleton.1 hf] at hm
  exact absurd hm List.not_mem_nil

end Builder

/-- Every text has a tree that keeps it. -/
theorem Tree.lossless_read (cs : List Char) :
    (Tree.read cs).source = cs ∧ (Tree.read cs).Lossless := by
  have hsource : (Tree.read cs).source = cs := Builder.source_reading cs
  have hlength : (Tree.read cs).length = byteLength cs := congrArg byteLength hsource
  have hcovers := Tree.covers_leaves_read cs
  have hsrc : StandsAt cs 0 ((lex cs).flatMap (·.text)) := by
    rw [flatMap_text_lex]
    exact standsAt_self cs
  have hspan := Builder.span_of_covers hcovers (fun _ => sound_of_mem_lex) hsrc
  have htiled : Builder.Tiled (byteLength (Builder.reading cs).source) (Builder.reading cs) := by
    rw [Builder.source_reading]
    exact Builder.tiled_reading cs
  obtain ⟨hroot, hfilled⟩ := htiled.toTree
  refine ⟨hsource, hroot, ?_, ?_, ?_, ?_, hfilled⟩
  · have h := Builder.tiles_of_covers hcovers
    rwa [flatMap_text_lex, Nat.zero_add, Tree.map_node_leaves, ← hlength] at h
  · intro n hn
    rw [← Tree.map_node_leaves] at hn
    obtain ⟨leaf, hleaf, rfl⟩ := List.mem_map.1 hn
    exact (hspan leaf hleaf).1
  · intro n hn
    rw [← Tree.map_node_leaves] at hn
    obtain ⟨leaf, hleaf, rfl⟩ := List.mem_map.1 hn
    rw [hsource]
    exact (hspan leaf hleaf).2
  · have h := Builder.flatMap_chars_of_covers hcovers hsrc
    rw [flatMap_text_lex] at h
    rw [← Tree.map_node_leaves, List.flatMap_map]
    simp only [Tree.chars, hsource]
    exact h

end Typeahead
