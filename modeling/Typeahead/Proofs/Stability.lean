import Typeahead.Proofs.Leaves

/-!
# Reading ahead changes nothing

How a text is read up to a point does not depend on what is written after that
point: a leaf that ends before the point is there with the same number, kind,
span and text, and inside the same nodes, whatever follows. Only the nodes around
it may end elsewhere.

Two texts `u ++ v` and `u ++ w` have the same lexemes until one reaches the end
of `u` (`exists_lex_append`), so reading them goes through the same construction.
From there on a construction only appends leaves.

* `placeAll_withSource`: a construction does not look at its source;
* `mem_leaves_read_append`: a leaf that ends before the end of `u` is a leaf of
  every tree of a text that begins with `u`;
* `locationOf_read`: a node is found again by its number;
* `locationOf_read_append`: what stands before a point is read the same way,
  whatever follows.
-/

namespace Typeahead

/-! ### The same construction over another source -/

namespace Builder

/-- The construction, over another source. -/
def withSource (b : Builder) (src : List Char) : Builder := { b with source := src }

variable (b : Builder) (src : List Char) (start stop : Nat)

theorem finish_withSource : (b.withSource src).finish stop = (b.finish stop).withSource src := by
  cases h : b.below with
  | nil =>
    have h' : (b.withSource src).below = [] := h
    rw [finish_nil h, finish_nil h']
  | cons f fs =>
    have h' : (b.withSource src).below = f :: fs := h
    rw [finish_cons h, finish_cons h']
    rfl

theorem settle_withSource : (b.withSource src).settle stop = (b.settle stop).withSource src := by
  suffices hgo : ∀ (below : List Frame) (top : Frame),
      settle.go stop (b.withSource src) top below =
        (settle.go stop b top below).withSource src from hgo _ _
  intro below
  induction below with
  | nil => exact fun _ => rfl
  | cons f fs ih =>
    intro top
    rw [settle.go, settle.go]
    split
    · exact ih _
    · rfl

theorem unwindTo_withSource (d : Char) :
    (b.withSource src).unwindTo d stop = (b.unwindTo d stop).withSource src := by
  suffices hgo : ∀ (below : List Frame) (top : Frame),
      unwindTo.go d stop (b.withSource src) top below =
        (unwindTo.go d stop b top below).withSource src from hgo _ _
  intro below
  induction below with
  | nil => exact fun _ => rfl
  | cons f fs ih =>
    intro top
    rw [unwindTo.go, unwindTo.go]
    split
    · rfl
    · exact ih _

theorem token_withSource (kind : Kind) (span : Span) :
    (b.withSource src).token kind span = (b.token kind span).withSource src :=
  rfl

theorem closes_withSource (d : Char) : (b.withSource src).closes d = b.closes d := rfl

theorem place_withSource (l : Lexeme) :
    (b.withSource src).place start l = (b.place start l).withSource src := by
  rw [place.eq_def, place.eq_def]
  split
  · rfl
  · rfl
  · rfl
  · rfl
  · rfl
  · simp only [token_withSource, settle_withSource]
  · simp only [closes_withSource, unwindTo_withSource, token_withSource, finish_withSource,
      settle_withSource]
    split <;> rfl

/-- A construction does not look at its source. -/
theorem placeAll_withSource (ls : List Lexeme) :
    (b.withSource src).placeAll start ls = (b.placeAll start ls).withSource src := by
  induction ls generalizing b start with
  | nil => rfl
  | cons l ls ih => rw [placeAll, placeAll, place_withSource, ih]

end Builder

/-! ### Leaves that come later -/

namespace Builder

variable {start : Nat} {ls : List Lexeme} {leaves : List Leaf}

theorem le_stop_of_covers (h : Covers start ls leaves) :
    ∀ leaf ∈ leaves, start ≤ leaf.node.span.stop := by
  induction ls generalizing start leaves with
  | nil => rw [h]; exact fun leaf hleaf => absurd hleaf List.not_mem_nil
  | cons l ls ih =>
    cases leaves with
    | nil => exact h.elim
    | cons leaf leaves =>
      obtain ⟨-, hspan, hcovers⟩ := h
      intro k hk
      rcases List.mem_cons.1 hk with rfl | hk
      · rw [hspan]
        exact Nat.le_add_right ..
      · exact Nat.le_trans (Nat.le_add_right ..) (ih hcovers k hk)

/-- If the first lexeme reaches at least to `stop`, then no leaf ends before. -/
theorem le_stop_of_covers_of_first {stop : Nat} (h : Covers start ls leaves)
    (hfirst : ∀ l ls', ls = l :: ls' → stop ≤ start + byteLength l.text) :
    ∀ leaf ∈ leaves, stop ≤ leaf.node.span.stop := by
  cases ls with
  | nil => rw [h]; exact fun leaf hleaf => absurd hleaf List.not_mem_nil
  | cons l ls =>
    cases leaves with
    | nil => exact h.elim
    | cons leaf leaves =>
      obtain ⟨-, hspan, hcovers⟩ := h
      intro k hk
      refine Nat.le_trans (hfirst l ls rfl) ?_
      rcases List.mem_cons.1 hk with rfl | hk
      · exact Nat.le_of_eq (congrArg Span.stop hspan).symm
      · exact le_stop_of_covers hcovers k hk

end Builder

/-- A leaf that ends before the end of `u` is a leaf of every tree of a text that
    begins with `u`. -/
theorem Tree.mem_leaves_read_append {u v : List Char} {leaf : Leaf}
    (h : leaf ∈ (Tree.read (u ++ v)).leaves) (hstop : leaf.node.span.stop < byteLength u)
    (w : List Char) : leaf ∈ (Tree.read (u ++ w)).leaves := by
  obtain ⟨ls, r, hu, hv, hw, hlast⟩ := exists_lex_append u v w
  have hsound : ∀ l ∈ ls, l.Sound := fun l hl =>
    sound_of_mem_lex (hv ▸ List.mem_append_left _ hl)
  have hnew : ∀ cs, Builder.Stacked (Builder.new cs).frames := fun _ => rfl
  -- After the common lexemes both constructions have the same leaves.
  have hsame : ((Builder.new (u ++ w)).placeAll 0 ls).leaves =
      ((Builder.new (u ++ v)).placeAll 0 ls).leaves := by
    have h := congrArg Builder.leaves
      (Builder.placeAll_withSource (Builder.new (u ++ v)) (u ++ w) 0 ls)
    exact h
  -- What the rest of a text adds comes after them.
  have hread : ∀ t, lex (u ++ t) = ls ++ lex (r ++ t) → ∃ leaves,
      (Tree.read (u ++ t)).leaves = ((Builder.new (u ++ t)).placeAll 0 ls).leaves ++ leaves ∧
        Builder.Covers (byteLength (ls.flatMap (·.text))) (lex (r ++ t)) leaves := by
    intro t ht
    obtain ⟨hs, -⟩ := Builder.leaves_placeAll hsound (hnew (u ++ t)) 0
    obtain ⟨hs', leaves, hleaves, hcovers⟩ :=
      Builder.leaves_placeAll (fun l (hl : l ∈ lex (r ++ t)) => sound_of_mem_lex hl) hs
        (byteLength (ls.flatMap (·.text)))
    refine ⟨leaves, ?_, hcovers⟩
    rw [← hleaves, ← Builder.leaves_toTree hs', Tree.read, ht, Builder.placeAll_append,
      Nat.zero_add]
  obtain ⟨leaves, hleaves, hcovers⟩ := hread v hv
  obtain ⟨leaves', hleaves', -⟩ := hread w hw
  rw [hleaves] at h
  rw [hleaves', hsame]
  rcases List.mem_append.1 h with h | h
  · exact List.mem_append_left _ h
  · have hfirst : ∀ l ls', lex (r ++ v) = l :: ls' →
        byteLength u ≤ byteLength (ls.flatMap (·.text)) + byteLength l.text := by
      intro l ls' hl
      rw [hu, byteLength_append]
      exact Nat.add_le_add_left (hlast l ls' hl) _
    exact absurd hstop (Nat.not_lt.2 (Builder.le_stop_of_covers_of_first hcovers hfirst leaf h))

/-! ### Finding a node by its number -/

/-- In a list without repeated keys, an element is found by its key. -/
theorem find?_eq_some_of_nodup {α β : Type} [BEq β] [LawfulBEq β] {f : α → β} {xs : List α} {x : α}
    (hnodup : (xs.map f).Nodup) (hx : x ∈ xs) : xs.find? (f · == f x) = some x := by
  induction xs with
  | nil => exact absurd hx List.not_mem_nil
  | cons y ys ih =>
    rw [List.map_cons, List.nodup_cons] at hnodup
    rcases List.mem_cons.1 hx with rfl | hx
    · simp
    · have hne : f y ≠ f x := fun h => hnodup.1 (h ▸ List.mem_map_of_mem hx)
      simp [hne, ih hnodup.2 hx]

theorem Tree.locationOf_read {cs : List Char} {l : Location} (hl : l ∈ (Tree.read cs).locations) :
    (Tree.read cs).locationOf l.node.id = .ok l := by
  obtain ⟨n, hn⟩ := Tree.ids_read cs
  have hnodup : ((Tree.read cs).locations.map (·.node.id)).Nodup := by
    have hids : (Tree.read cs).locations.map (·.node.id) = List.range n := by
      rw [← hn, Tree.nodes, ← Node.map_node_locations [], List.map_map]
      rfl
    rw [hids]
    exact List.nodup_range
  rw [Tree.locationOf, find?_eq_some_of_nodup hnodup hl]

theorem Tree.stop_root_read (cs : List Char) : (Tree.read cs).root.span.stop = byteLength cs := by
  obtain ⟨b', -, -, htree⟩ := Builder.exists_closing_toTree (Builder.reading cs)
  have hread : Tree.read cs = (Builder.reading cs).toTree := rfl
  rw [hread, htree, Frame.close, Builder.source_reading]

theorem Location.id_parent?_eq (l : Location) :
    l.parent?.map (·.node.id) = l.trail.head?.map (·.id) := by
  obtain ⟨n, above⟩ := l
  cases above <;> rfl

/-- What is written after a point does not change how the text before it is read:
    a leaf that ends before the end of `u` is found again, by its number, in the
    tree of every text that begins with `u`, with the same kind, span and text,
    under the same parent, and the nodes around it have the same numbers, kinds
    and starts. -/
theorem Tree.locationOf_read_append {u v : List Char} {l : Location}
    (hl : l ∈ (Tree.read (u ++ v)).locations) (hleaf : l.node.children = [])
    (hstop : l.node.span.stop < byteLength u) (w : List Char) :
    ∃ l', (Tree.read (u ++ w)).locationOf l.node.id = .ok l' ∧ l'.node = l.node ∧
      (Tree.read (u ++ w)).text l'.node = (Tree.read (u ++ v)).text l.node ∧
      l'.parent?.map (·.node.id) = l.parent?.map (·.node.id) ∧
      l'.above.map (fun a => (a.id, a.kind, a.span.start)) =
        l.above.map fun a => (a.id, a.kind, a.span.start) := by
  rcases Tree.mem_leaves_of_mem_locations hl hleaf with rfl | hmem
  · -- The root ends where the text does.
    rw [Tree.stop_root_read, byteLength_append] at hstop
    omega
  obtain ⟨l', hl', hnode, htrail⟩ :=
    Tree.exists_location_of_mem_leaves (Tree.mem_leaves_read_append hmem hstop w)
  have hlocation := Tree.locationOf_read hl'
  have hsource : ∀ cs, (Tree.read cs).source = cs := Builder.source_reading
  rw [hnode] at hlocation
  refine ⟨l', hlocation, hnode, ?_, ?_, ?_⟩
  · have hle := Nat.le_of_lt hstop
    rw [hnode, Tree.text, Tree.text, Tree.chars, Tree.chars, hsource, hsource,
      slice_append_left w hle, slice_append_left v hle]
  · rw [l'.id_parent?_eq, l.id_parent?_eq, htrail]
  · have h := congrArg (List.map fun g : Heading => (g.id, g.kind, g.start)) htrail
    rw [Location.trail, Location.trail, List.map_map, List.map_map] at h
    exact h

/-- A string in a quoted vector stays where it is read, whether the comma after
    it becomes part of a longer sigil or a delimiter cuts the vector off. -/
theorem Tree.locationOf_read_append_string :
    let u := "(f '[\"a\\\"é\" ,".toList
    ∃ l ∈ (Tree.read (u ++ "@x".toList)).locations,
      l.node.kind = .string ∧ l.node.children = [] ∧ l.node.span.stop < byteLength u ∧
        ∃ l', (Tree.read (u ++ " y)".toList)).locationOf l.node.id = .ok l' ∧
          l'.node = l.node ∧
          (Tree.read (u ++ " y)".toList)).text l'.node =
            (Tree.read (u ++ "@x".toList)).text l.node ∧
          l'.parent?.map (·.node.id) = l.parent?.map (·.node.id) ∧
          l'.above.map (fun a => (a.id, a.kind, a.span.start)) =
            l.above.map fun a => (a.id, a.kind, a.span.start) := by
  intro u
  have h : ∃ l ∈ (Tree.read (u ++ "@x".toList)).locations,
      l.node.kind = .string ∧ l.node.children = [] ∧ l.node.span.stop < byteLength u := by
    decide +kernel
  obtain ⟨l, hl, hkind, hleaf, hstop⟩ := h
  exact ⟨l, hl, hkind, hleaf, hstop, Tree.locationOf_read_append hl hleaf hstop " y)".toList⟩

end Typeahead
