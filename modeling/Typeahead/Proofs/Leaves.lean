import Typeahead.Proofs.Construction

/-!
# The leaves of a tree

The span of a node is known only when it is closed, but its number, its kind and
its start, together its *heading*, are known from when it is opened. So where a
leaf stands in a tree is told by the headings of the nodes around it, its
*trail*, and these are the same in the finished tree as when the leaf was added.

This gives a second view of a tree and of a tree under construction, as the list
of its leaves with their trails. In this view a construction only ever appends.

* `leaves_eq`: the leaves of a node are its locations without children;
* `Outcome.leaves_eq`: placing a lexeme adds one leaf, which covers it;
* `leaves_toTree`: ending a construction keeps the leaves;
* `covers_leaves_read`: the leaves of a read tree are the lexemes of the text;
* `ids_read`: the nodes of a read tree are numbered in tree order, without gaps.
-/

namespace Typeahead

/-- What is known of a node from when it is opened. -/
structure Heading where
  id : Nat
  kind : Kind
  start : Nat
  deriving DecidableEq, Repr

/-- The heading of a node. -/
def Node.heading (n : Node) : Heading := ⟨n.id, n.kind, n.span.start⟩

/-- The heading of a node that is still open. -/
def Frame.heading (f : Frame) : Heading := ⟨f.id, f.kind, f.start⟩

/-- The headings of the nodes around a location, innermost first. -/
def Location.trail (l : Location) : List Heading := l.above.map Node.heading

/-- A node without children, and the headings of the nodes around it, innermost
    first. -/
structure Leaf where
  node : Node
  trail : List Heading

mutual

/-- The leaves of a node inside nodes with the headings `trail`. -/
def Node.leaves (trail : List Heading) : Node → List Leaf
  | ⟨id, kind, span, []⟩ => [⟨⟨id, kind, span, []⟩, trail⟩]
  | ⟨id, kind, span, n :: ns⟩ => Node.leavesAll (⟨id, kind, span.start⟩ :: trail) (n :: ns)

/-- The leaves of a list of nodes, node by node. -/
def Node.leavesAll (trail : List Heading) : List Node → List Leaf
  | [] => []
  | n :: ns => n.leaves trail ++ Node.leavesAll trail ns

end

/-- The leaves of a tree; the root is none, even if nothing is in it. -/
def Tree.leaves (t : Tree) : List Leaf := Node.leavesAll [t.root.heading] t.root.children

mutual

theorem Node.leaves_eq (above : List Node) : (n : Node) →
    n.leaves (above.map Node.heading) =
      ((n.locations above).filter (·.node.children.isEmpty)).map fun l => ⟨l.node, l.trail⟩
  | ⟨id, kind, span, []⟩ => by
    simp [Node.leaves, Node.locations, Node.locationsAll, Location.trail]
  | ⟨id, kind, span, n :: ns⟩ => by
    have h := Node.leavesAll_eq (⟨id, kind, span, n :: ns⟩ :: above) (n :: ns)
    rw [Node.leaves, Node.locations, List.filter_cons_of_neg (by simp)]
    exact h

theorem Node.leavesAll_eq (above : List Node) : (ns : List Node) →
    Node.leavesAll (above.map Node.heading) ns =
      ((Node.locationsAll above ns).filter (·.node.children.isEmpty)).map
        fun l => ⟨l.node, l.trail⟩
  | [] => rfl
  | n :: ns => by
    rw [Node.leavesAll, Node.locationsAll, List.filter_append, List.map_append,
      Node.leaves_eq above n, Node.leavesAll_eq above ns]

end

mutual

theorem Node.map_node_locations (above : List Node) : (n : Node) →
    (n.locations above).map (·.node) = n.preorder
  | ⟨id, kind, span, ns⟩ => by
    rw [Node.locations, List.map_cons, Node.map_node_locationsAll _ ns, Node.preorder]

theorem Node.map_node_locationsAll (above : List Node) : (ns : List Node) →
    (Node.locationsAll above ns).map (·.node) = Node.preorderAll ns
  | [] => rfl
  | n :: ns => by
    rw [Node.locationsAll, List.map_append, Node.map_node_locations above n,
      Node.map_node_locationsAll above ns, Node.preorderAll]

end

theorem Tree.exists_location_of_mem_nodes {t : Tree} {n : Node} (hn : n ∈ t.nodes) :
    ∃ l ∈ t.locations, l.node = n := by
  rw [nodes, ← Node.map_node_locations []] at hn
  exact List.mem_map.1 hn

theorem Tree.locations_eq (t : Tree) :
    t.locations = ⟨t.root, []⟩ :: Node.locationsAll [t.root] t.root.children := by
  obtain ⟨source, ⟨id, kind, span, ns⟩⟩ := t
  rw [Tree.locations, Node.locations]

/-- The locations of all nodes but the root. -/
def Tree.below (t : Tree) : List Location := Node.locationsAll [t.root] t.root.children

theorem Tree.mem_locations_of_below {t : Tree} {l : Location} (h : l ∈ t.below) :
    l ∈ t.locations := by
  rw [t.locations_eq]
  exact List.mem_cons_of_mem _ h

theorem Tree.leaves_eq (t : Tree) :
    t.leaves = ((Node.locationsAll [t.root] t.root.children).filter
      (·.node.children.isEmpty)).map fun l => ⟨l.node, l.trail⟩ :=
  Node.leavesAll_eq [t.root] t.root.children

/-- The location of a node without children is that of a leaf, unless it is that
    of the root. -/
theorem Tree.mem_leaves_of_mem_locations {t : Tree} {l : Location} (hl : l ∈ t.locations)
    (hnil : l.node.children = []) : l = ⟨t.root, []⟩ ∨ ⟨l.node, l.trail⟩ ∈ t.leaves := by
  rw [t.locations_eq] at hl
  rcases List.mem_cons.1 hl with rfl | hl
  · exact .inl rfl
  · rw [t.leaves_eq]
    exact .inr (List.mem_map.2 ⟨l, List.mem_filter.2 ⟨hl, by rw [hnil]; rfl⟩, rfl⟩)

theorem Tree.exists_location_of_mem_leaves {t : Tree} {leaf : Leaf} (h : leaf ∈ t.leaves) :
    ∃ l ∈ t.locations, l.node = leaf.node ∧ l.trail = leaf.trail := by
  rw [t.leaves_eq] at h
  obtain ⟨l, hl, rfl⟩ := List.mem_map.1 h
  rw [t.locations_eq]
  exact ⟨l, List.mem_cons_of_mem _ (List.mem_filter.1 hl).1, rfl, rfl⟩

theorem Node.leavesAll_append (trail : List Heading) (ms ns : List Node) :
    Node.leavesAll trail (ms ++ ns) = Node.leavesAll trail ms ++ Node.leavesAll trail ns := by
  induction ms with
  | nil => rfl
  | cons m ms ih => rw [List.cons_append, Node.leavesAll, Node.leavesAll, ih, List.append_assoc]

/-- A node that had children while it was open is no leaf. -/
theorem Frame.leaves_close {f : Frame} (h : f.children ≠ []) (trail : List Heading) (stop : Nat) :
    (f.close stop).leaves trail = Node.leavesAll (f.heading :: trail) f.children.reverse := by
  obtain ⟨n, ns, hn⟩ := List.exists_cons_of_ne_nil (mt List.reverse_eq_nil_iff.1 h)
  rw [Frame.close, hn, Node.leaves]
  rfl

namespace Builder

variable {b b' : Builder} {start stop : Nat} {l : Lexeme}

/-- The headings of the open nodes, innermost first. -/
def trail (b : Builder) : List Heading := b.frames.map Frame.heading

/-- The leaves inside open nodes, given innermost first. -/
def leavesIn : List Frame → List Leaf
  | [] => []
  | f :: fs => leavesIn fs ++ Node.leavesAll ((f :: fs).map Frame.heading) f.children.reverse

/-- The leaves so far. -/
def leaves (b : Builder) : List Leaf := leavesIn b.frames

theorem leaves_token (b : Builder) (kind : Kind) (span : Span) :
    (b.token kind span).leaves = b.leaves ++ [⟨⟨b.next, kind, span, []⟩, b.trail⟩] := by
  simp only [leaves, frames, token, leavesIn, Frame.add, List.reverse_cons, Node.leavesAll_append,
    ← List.append_assoc]
  rfl

theorem leaves_start (b : Builder) (kind : Kind) (start : Nat) :
    (b.start kind start).leaves = b.leaves :=
  List.append_nil _

theorem leaves_start_token (b : Builder) (kind first : Kind) (start : Nat) (span : Span) :
    ((b.start kind start).token first span).leaves =
      b.leaves ++ [⟨⟨b.next + 1, first, span, []⟩, ⟨b.next, kind, start⟩ :: b.trail⟩] := by
  rw [leaves_token, leaves_start]
  rfl

theorem leaves_finish (h : b.top.children ≠ []) (stop : Nat) :
    (b.finish stop).leaves = b.leaves := by
  rw [finish]
  split
  · rfl
  · next f fs hbelow =>
    simp only [leaves, frames, hbelow, leavesIn, Frame.add, List.reverse_cons,
      Node.leavesAll_append, Node.leavesAll, List.append_nil, Frame.leaves_close h,
      List.append_assoc]
    rfl

/-- The open nodes are the root, outermost, and inside it nodes that have parts,
    each with its first token at least. -/
def Stacked : List Frame → Prop
  | [] => False
  | [f] => f.kind = .root
  | f :: g :: fs => f.kind.isNested = true ∧ f.children ≠ [] ∧ Stacked (g :: fs)

theorem Stacked.add {f : Frame} {fs : List Frame} (h : Stacked (f :: fs)) (n : Node) :
    Stacked (f.add n :: fs) := by
  cases fs with
  | nil => exact h
  | cons g gs => exact ⟨h.1, List.cons_ne_nil _ _, h.2.2⟩

theorem Stacked.finish (h : Stacked b.frames) (stop : Nat) : Stacked (b.finish stop).frames := by
  rw [Builder.finish]
  split
  · exact h
  · next f fs hbelow =>
    rw [frames, hbelow] at h
    exact h.2.2.add _

theorem Stacked.token (h : Stacked b.frames) (kind : Kind) (span : Span) :
    Stacked (b.token kind span).frames :=
  Stacked.add h _

theorem Stacked.start_token (h : Stacked b.frames) {kind : Kind} (hk : kind.isNested = true)
    (start : Nat) (first : Kind) (span : Span) :
    Stacked ((b.start kind start).token first span).frames :=
  ⟨hk, List.cons_ne_nil _ _, h⟩

theorem Stacked.children_ne_nil (h : Stacked b.frames) (hb : b.below ≠ []) :
    b.top.children ≠ [] := by
  obtain ⟨f, fs, hf⟩ := List.exists_cons_of_ne_nil hb
  rw [frames, hf] at h
  exact h.2.1

/-- Closing open nodes keeps the leaves. -/
theorem Closing.leaves_eq {p : Kind → Prop} (h : Closing stop p b b') (hb : Stacked b.frames) :
    Stacked b'.frames ∧ b'.leaves = b.leaves := by
  refine h.keeps (P := fun c => Stacked c.frames ∧ c.leaves = b.leaves) ?_ ⟨hb, rfl⟩
  intro c _ hne hc
  exact ⟨hc.1.finish stop, (leaves_finish (hc.1.children_ne_nil hne) stop).trans hc.2⟩

theorem closer?_ne_of_mem_trail {d : Char} (h : b.closes d = false) :
    ∀ g ∈ b.trail, g.kind.closer? ≠ some d := by
  intro g hg hd
  obtain ⟨f, hf, rfl⟩ := List.mem_map.1 hg
  rw [closes, List.any_eq_false] at h
  exact h f hf (beq_iff_eq.2 hd)

/-- Placing a lexeme adds one leaf, which covers the lexeme. If the leaf is an
    error, then no node around it is a collection that the lexeme closes. -/
theorem Outcome.leaves_eq (h : Outcome b start l b') (hb : Stacked b.frames) :
    Stacked b'.frames ∧ ∃ leaf : Leaf, b'.leaves = b.leaves ++ [leaf] ∧
      leaf.node.children = [] ∧ leaf.node.span = ⟨start, start + byteLength l.text⟩ ∧
      (leaf.node.kind = .error →
        ∃ d, isCloser d = true ∧ l.text = [d] ∧ ∀ g ∈ leaf.trail, g.kind.closer? ≠ some d) := by
  cases h with
  | filler hk =>
    refine ⟨hb.token _ _, _, leaves_token .., rfl, rfl, ?_⟩
    rintro rfl
    exact absurd hk (by decide)
  | stray hd ht hopen =>
    exact ⟨hb.token _ _, _, leaves_token .., rfl, rfl,
      fun _ => ⟨_, hd, ht, closer?_ne_of_mem_trail hopen⟩⟩
  | opening hk =>
    refine ⟨hb.start_token ?_ _ _ _, _, leaves_start_token .., rfl, rfl, ?_⟩
    · rcases hk with ⟨hk, -⟩ | ⟨rfl, -⟩
      · rw [Kind.isNested, hk, Bool.true_or]
      · rfl
    · rcases hk with ⟨-, rfl⟩ | ⟨-, rfl⟩ <;> exact Kind.noConfusion
  | atom hk =>
    obtain ⟨hs, he⟩ := (closing_settle _ _).leaves_eq (hb.token _ _)
    refine ⟨hs, _, he.trans (leaves_token ..), rfl, rfl, ?_⟩
    rintro rfl
    exact absurd hk (by decide)
  | @closing d ht hopen =>
    -- The nodes closed before the delimiter are not around its leaf, and those
    -- closed after it have it inside.
    obtain ⟨hs₁, he₁⟩ := (closing_unwindTo b d start).leaves_eq hb
    have hs₂ := (hs₁.token .closeDelim ⟨start, start + byteLength l.text⟩).finish
      (start + byteLength l.text)
    obtain ⟨hs₃, he₃⟩ := (closing_settle _ (start + byteLength l.text)).leaves_eq hs₂
    rw [leaves_finish (List.cons_ne_nil _ _), leaves_token, he₁] at he₃
    exact ⟨hs₃, _, he₃, rfl, rfl, Kind.noConfusion⟩

/-- Each of the leaves covers one of the lexemes, which follow each other from
    the offset `start` on. -/
def Covers : Nat → List Lexeme → List Leaf → Prop
  | _, [], leaves => leaves = []
  | _, _ :: _, [] => False
  | start, l :: ls, leaf :: leaves =>
    leaf.node.children = [] ∧ leaf.node.span = ⟨start, start + byteLength l.text⟩ ∧
      Covers (start + byteLength l.text) ls leaves

theorem leaves_placeAll {ls : List Lexeme} (hls : ∀ l ∈ ls, l.Sound) (hb : Stacked b.frames)
    (start : Nat) :
    Stacked (b.placeAll start ls).frames ∧
      ∃ leaves, (b.placeAll start ls).leaves = b.leaves ++ leaves ∧ Covers start ls leaves := by
  induction ls generalizing b start with
  | nil => exact ⟨hb, [], (List.append_nil _).symm, rfl⟩
  | cons l ls ih =>
    obtain ⟨hs, leaf, hleaf, hnil, hspan, -⟩ :=
      (outcome_place (hls l List.mem_cons_self) b start).leaves_eq hb
    obtain ⟨hs', leaves, hleaves, hcovers⟩ :=
      ih (fun l h => hls l (List.mem_cons_of_mem _ h)) hs (start + byteLength l.text)
    refine ⟨hs', leaf :: leaves, ?_, hnil, hspan, hcovers⟩
    rw [placeAll, hleaves, hleaf, List.append_assoc, List.singleton_append]

/-- The leaves of a tree are those that were there before everything was closed. -/
theorem leaves_toTree (hb : Stacked b.frames) : b.toTree.leaves = b.leaves := by
  obtain ⟨b', hclosing, hnil, htree⟩ := exists_closing_toTree b
  rw [htree, ← (hclosing.leaves_eq hb).2, leaves, frames, hnil]
  rfl

/-! ### Numbers of nodes -/

/-- The numbers of open nodes, given innermost first, and of all nodes inside
    them, in tree order. -/
def idsIn : List Frame → List Nat
  | [] => []
  | f :: fs => idsIn fs ++ f.id :: (Node.preorderAll f.children.reverse).map (·.id)

/-- The numbers of the nodes so far, in tree order. -/
def ids (b : Builder) : List Nat := idsIn b.frames

theorem ids_token (b : Builder) (kind : Kind) (span : Span) :
    (b.token kind span).ids = b.ids ++ [b.next] := by
  simp [ids, frames, token, idsIn, Frame.add, Node.preorderAll_append, Node.preorderAll,
    Node.preorder]

theorem ids_start (b : Builder) (kind : Kind) (start : Nat) :
    (b.start kind start).ids = b.ids ++ [b.next] :=
  rfl

theorem ids_finish (b : Builder) (stop : Nat) : (b.finish stop).ids = b.ids := by
  rw [finish]
  split
  · rfl
  · next f fs hbelow =>
    simp [ids, frames, hbelow, idsIn, Frame.add, Frame.close, Node.preorderAll_append,
      Node.preorderAll, Node.preorder]

theorem next_finish (b : Builder) (stop : Nat) : (b.finish stop).next = b.next := by
  rw [finish]
  split <;> rfl

/-- Nodes are numbered in tree order, whatever is placed. -/
theorem Outcome.ids_eq (h : Outcome b start l b') (hb : b.ids = List.range b.next) :
    b'.ids = List.range b'.next := by
  refine h.keeps (P := fun c => c.ids = List.range c.next) ?_ ?_ ?_ hb
  · intro c kind start hc
    rw [ids_start, hc]
    exact List.range_succ.symm
  · intro c kind span hc
    rw [ids_token, hc]
    exact List.range_succ.symm
  · intro c stop hc
    rw [ids_finish, next_finish, hc]

theorem ids_toTree (b : Builder) : b.toTree.nodes.map (·.id) = b.ids := by
  obtain ⟨b', hclosing, hnil, htree⟩ := exists_closing_toTree b
  have hids : b'.ids = b.ids :=
    hclosing.keeps (P := fun c => c.ids = b.ids) (fun c _ _ hc => (ids_finish c _).trans hc) rfl
  rw [htree, ← hids, ids, frames, hnil]
  rfl

end Builder

/-- The leaves of the tree of a text are the lexemes of the text. -/
theorem Tree.covers_leaves_read (cs : List Char) :
    Builder.Covers 0 (lex cs) (Tree.read cs).leaves := by
  have hnew : Builder.Stacked (Builder.new cs).frames := rfl
  obtain ⟨hs, leaves, hleaves, hcovers⟩ :=
    Builder.leaves_placeAll (fun _ => sound_of_mem_lex) hnew 0
  have h : (Tree.read cs).leaves = leaves := (Builder.leaves_toTree hs).trans hleaves
  rwa [h]

/-- The nodes of the tree of a text are numbered in tree order, without gaps. -/
theorem Tree.ids_read (cs : List Char) :
    ∃ n, (Tree.read cs).nodes.map (·.id) = List.range n := by
  have h : (Builder.reading cs).ids = List.range (Builder.reading cs).next :=
    Builder.reading_induction (P := fun _ b => b.ids = List.range b.next) rfl
      fun _ _ _ _ hb _ _ h => h.ids_eq hb
  exact ⟨_, (Builder.ids_toTree _).trans h⟩

end Typeahead
