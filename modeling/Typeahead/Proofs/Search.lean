import Typeahead.Proofs.Recovery
import Typeahead.Proofs.Tokens
import Typeahead.Tree.Find

/-!
# Finding a token

A search by offset goes down from the root, at each node into the first child
around the offset, unless a word at that level touches it. In a tree whose nodes
are filled by their children this leads to the token that holds the offset, if no
other word touches the offset (`Tree.Targets`): the children before the right one
end before the offset, and those after it start behind.

* `Targets.findAt_eq`: the search ends at the token;
* `span_of_mem_preorder`: what is inside a node lies within its span.
-/

namespace Typeahead

/-! ### Spans inside spans -/

theorem Tiles.le {start stop : Nat} {ns : List Node} (h : Tiles start stop ns)
    (hle : ∀ n ∈ ns, n.span.start ≤ n.span.stop) : start ≤ stop := by
  induction ns generalizing start with
  | nil => exact Nat.le_of_eq h
  | cons n ns ih =>
    obtain ⟨rfl, hrest⟩ := h
    exact Nat.le_trans (hle n List.mem_cons_self)
      (ih hrest fun m hm => hle m (List.mem_cons_of_mem _ hm))

/-- Of nodes that follow each other, the earlier ones end before a node starts,
    and the later ones start after it ends. -/
theorem Tiles.around {start stop : Nat} {pre post : List Node} {n : Node}
    (h : Tiles start stop (pre ++ n :: post))
    (hle : ∀ m ∈ pre ++ n :: post, m.span.start ≤ m.span.stop) :
    start ≤ n.span.start ∧ n.span.stop ≤ stop ∧ (∀ m ∈ pre, m.span.stop ≤ n.span.start) ∧
      ∀ m ∈ post, n.span.stop ≤ m.span.start := by
  obtain ⟨mid, hpre, hmid, hpost⟩ := tiles_append.1 h
  have hlePre : ∀ m ∈ pre, m.span.start ≤ m.span.stop := fun m hm =>
    hle m (List.mem_append_left _ hm)
  have hlePost : ∀ m ∈ post, m.span.start ≤ m.span.stop := fun m hm =>
    hle m (List.mem_append_right _ (List.mem_cons_of_mem _ hm))
  refine ⟨hmid ▸ hpre.le hlePre, hpost.le hlePost, fun m hm => ?_, fun m hm => ?_⟩
  · obtain ⟨as, bs, rfl⟩ := List.append_of_mem hm
    obtain ⟨cut, -, -, hrest⟩ := tiles_append.1 hpre
    exact hmid ▸ hrest.le fun k hk => hlePre k (List.mem_append_right _ (List.mem_cons_of_mem _ hk))
  · obtain ⟨as, bs, rfl⟩ := List.append_of_mem hm
    obtain ⟨cut, hfirst, hcut, -⟩ := tiles_append.1 hpost
    exact hcut ▸ hfirst.le fun k hk => hlePost k (List.mem_append_left _ hk)

namespace Node

mutual

/-- What is inside a node lies within its span. -/
theorem span_of_mem_preorder {m : Node} : (n : Node) → (∀ k ∈ n.preorder, k.Filled) →
    (∀ k ∈ n.preorder, k.span.start ≤ k.span.stop) → m ∈ n.preorder →
      n.span.start ≤ m.span.start ∧ m.span.stop ≤ n.span.stop
  | ⟨id, kind, span, ns⟩, hfilled, hle, hm => by
    rw [preorder] at hfilled hle hm
    rcases List.mem_cons.1 hm with rfl | hm
    · exact ⟨Nat.le_refl _, Nat.le_refl _⟩
    · have hne : ns ≠ [] := by
        rintro rfl
        exact absurd hm List.not_mem_nil
      exact span_of_mem_preorderAll ns (fun k hk => hfilled k (List.mem_cons_of_mem _ hk))
        (fun k hk => hle k (List.mem_cons_of_mem _ hk)) (hfilled _ List.mem_cons_self hne) hm

theorem span_of_mem_preorderAll {m : Node} : (ns : List Node) →
    (∀ k ∈ preorderAll ns, k.Filled) → (∀ k ∈ preorderAll ns, k.span.start ≤ k.span.stop) →
      ∀ {start stop : Nat}, Tiles start stop ns → m ∈ preorderAll ns →
        start ≤ m.span.start ∧ m.span.stop ≤ stop
  | [], _, _, _, _, _, hm => absurd hm (by rw [preorderAll]; exact List.not_mem_nil)
  | n :: ns, hfilled, hle, start, stop, htiles, hm => by
    rw [preorderAll] at hfilled hle hm
    obtain ⟨rfl, hrest⟩ := htiles
    have hrestLe : ∀ k ∈ ns, k.span.start ≤ k.span.stop := fun k hk =>
      hle k (List.mem_append_right _ (mem_preorderAll.2 ⟨k, hk, k.mem_preorder_self⟩))
    rcases List.mem_append.1 hm with hm | hm
    · obtain ⟨hstart, hstop⟩ := span_of_mem_preorder n
        (fun k hk => hfilled k (List.mem_append_left _ hk))
        (fun k hk => hle k (List.mem_append_left _ hk)) hm
      exact ⟨hstart, Nat.le_trans hstop (hrest.le hrestLe)⟩
    · obtain ⟨hstart, hstop⟩ := span_of_mem_preorderAll ns
        (fun k hk => hfilled k (List.mem_append_right _ hk))
        (fun k hk => hle k (List.mem_append_right _ hk)) hrest hm
      exact ⟨Nat.le_trans (hle n (List.mem_append_left _ n.mem_preorder_self)) hstart, hstop⟩

end

end Node

/-! ### The search -/

/-- What can hold other nodes is no word. -/
theorem Kind.isWord_eq_false {k : Kind} (h : k = .root ∨ k.isNested = true) :
    k.isWord = false := by
  rcases h with rfl | h
  · rfl
  · revert h
    cases k <;> decide

namespace Node

theorem isAround_of_stop_lt {n : Node} {offset : Nat} (h : n.span.stop < offset) :
    n.isAround offset = false := by
  have hcontains : n.span.contains offset = false := by
    simp only [Span.contains, Bool.and_eq_false_iff, decide_eq_false_iff_not]
    omega
  have hstop : (n.span.stop == offset) = false := beq_eq_false_iff_ne.2 (Nat.ne_of_lt h)
  simp [isAround, hcontains, hstop]

theorem findAround?_append {offset : Nat} {above pre post : List Node} {c : Node}
    (hpre : ∀ m ∈ pre, m.isAround offset = false) (hc : c.isAround offset = true) :
    findAround? offset above (pre ++ c :: post) =
      some (if c.kind.isNested then c.findAt offset above else ⟨c, above⟩) := by
  induction pre with
  | nil => rw [List.nil_append, findAround?, if_pos hc]
  | cons m pre ih =>
    rw [List.cons_append, findAround?, if_neg (by simp [hpre m List.mem_cons_self])]
    exact ih fun k hk => hpre k (List.mem_cons_of_mem _ hk)

theorem findAt_of_find?_eq_some {offset : Nat} {n w : Node} (above : List Node)
    (h : (n.children.find? fun c => c.kind.isWord && c.span.touches offset) = some w) :
    n.findAt offset above = ⟨w, n :: above⟩ := by
  obtain ⟨id, kind, span, ns⟩ := n
  simp only at h
  rw [findAt, h]

theorem findAt_of_find?_eq_none {offset : Nat} {n : Node} {l : Location} {above : List Node}
    (h : (n.children.find? fun c => c.kind.isWord && c.span.touches offset) = none)
    (hl : findAround? offset (n :: above) n.children = some l) :
    n.findAt offset above = l := by
  obtain ⟨id, kind, span, ns⟩ := n
  simp only at h
  rw [findAt, h]
  simp only [hl, Option.getD_some]

/-- Without a word among the children the search goes on in the first child around
    the offset, if it has parts. -/
theorem findAt_eq_findAt_child {offset : Nat} {n c : Node} {above pre post : List Node}
    (hword : (n.children.find? fun c => c.kind.isWord && c.span.touches offset) = none)
    (hchildren : n.children = pre ++ c :: post) (hpre : ∀ m ∈ pre, m.isAround offset = false)
    (hnested : c.kind.isNested = true) (haround : c.isAround offset = true) :
    n.findAt offset above = c.findAt offset (n :: above) := by
  refine findAt_of_find?_eq_none hword ?_
  rw [hchildren, findAround?_append hpre haround, if_pos hnested]

theorem above_of_mem_locationsAll {l : Location} {above ns : List Node}
    (h : l ∈ locationsAll above ns) : ∃ path, l.above = path ++ above := by
  have happ := locationsAll_append [] above ns
  rw [List.nil_append] at happ
  rw [happ] at h
  obtain ⟨k, -, rfl⟩ := List.mem_map.1 h
  exact ⟨k.above, rfl⟩

end Node

/-- Only collections and quoted forms have parts. -/
theorem Tree.isNested_of_children_ne_nil {cs : List Char} {n : Node} {above : List Node}
    (hn : ⟨n, above⟩ ∈ (Tree.read cs).below) (hne : n.children ≠ []) :
    n.kind.isNested = true := by
  obtain ⟨path, habove⟩ : ∃ path, above = path ++ [(Tree.read cs).root] :=
    Node.above_of_mem_locationsAll hn
  obtain ⟨_, _, _, -, hrun⟩ := exists_run_of_mem_below hn
  have hleaves : n.leaves (above.map Node.heading) =
      Node.leavesAll ((n :: above).map Node.heading) n.children := by
    obtain ⟨id, kind, span, ns⟩ := n
    cases ns with
    | nil => exact absurd rfl hne
    | cons m ns => rw [Node.leaves]; rfl
  obtain ⟨leaf, hleaf⟩ :=
    List.exists_mem_of_ne_nil _ (Node.leaves_ne_nil (above.map Node.heading) n)
  obtain ⟨_, _, _, -, htoken⟩ := hrun.tokens.exists_lexeme hleaf
  rw [hleaves, Node.leavesAll_eq] at hleaf
  obtain ⟨l, hl, rfl⟩ := List.mem_map.1 hleaf
  obtain ⟨inner, hinner⟩ := Node.above_of_mem_locationsAll (List.mem_filter.1 hl).1
  refine htoken.nested n.heading ?_
  have htrail : Location.trail l =
      ((inner ++ n :: path).map Node.heading) ++ [(Tree.read cs).root.heading] := by
    rw [Location.trail, hinner, habove]
    simp
  rw [show (⟨l.node, l.trail⟩ : Leaf).trail = l.trail from rfl, htrail, List.dropLast_concat]
  exact List.mem_map_of_mem (List.mem_append_right _ List.mem_cons_self)

/-- The token at the location `l` holds the offset, and a search for the offset in
    the tree cannot go astray. -/
structure Tree.Targets (t : Tree) (offset : Nat) (l : Location) : Prop where
  filled : ∀ n ∈ t.nodes, n.Filled
  lt_stop : ∀ n ∈ t.nodes, n.span.start < n.span.stop
  token : l.node.kind.isNested = false
  contains : l.node.span.start ≤ offset ∧ offset < l.node.span.stop
  /-- The search goes into the nodes around the token. -/
  inside : ∀ n ∈ l.above.dropLast, n.kind.isNested = true ∧ n.span.start < offset
  /-- No other word touches the offset. -/
  word : ∀ n ∈ t.nodes, n.kind.isWord = true → n.span.touches offset = true → n = l.node
  start : l.node.kind.isWord = true ∨ l.node.span.start < offset

namespace Tree.Targets

variable {t : Tree} {offset : Nat} {l : Location}

/-- The children before one that starts before the offset are not around it. -/
theorem isAround_before (h : t.Targets offset l) {start stop : Nat} {pre post : List Node}
    {c : Node} (htiles : Tiles start stop (pre ++ c :: post))
    (hmem : ∀ m ∈ pre ++ c :: post, m ∈ t.nodes) (hc : c.span.start < offset) :
    ∀ m ∈ pre, m.isAround offset = false := by
  intro m hm
  have hle : ∀ k ∈ pre ++ c :: post, k.span.start ≤ k.span.stop := fun k hk =>
    Nat.le_of_lt (h.lt_stop k (hmem k hk))
  have hbefore := (htiles.around hle).2.2.1 m hm
  exact Node.isAround_of_stop_lt (Nat.lt_of_le_of_lt hbefore hc)

/-- If the token is none of the nodes `ns`, then no word among them touches the
    offset. -/
theorem find?_eq_none (h : t.Targets offset l) {ns : List Node} (hmem : ∀ m ∈ ns, m ∈ t.nodes)
    (hne : ∀ m ∈ ns, m.kind.isWord = true → m ≠ l.node) :
    (ns.find? fun c => c.kind.isWord && c.span.touches offset) = none := by
  rw [List.find?_eq_none]
  intro m hm hword
  rw [Bool.and_eq_true] at hword
  exact hne m hm hword.1 (h.word m (hmem m hm) hword.1 hword.2)

/-- If the token is a child of the node, the search ends there. -/
theorem findAt_of_mem_children (h : t.Targets offset l) {n : Node} {above pre post : List Node}
    (hchildren : n.children = pre ++ l.node :: post) (habove : l.above = n :: above)
    (htiles : Tiles n.span.start n.span.stop (pre ++ l.node :: post))
    (hmem : ∀ m ∈ pre ++ l.node :: post, m ∈ t.nodes) : n.findAt offset above = l := by
  have hl : l = ⟨l.node, n :: above⟩ := by rw [← habove]
  by_cases hword : l.node.kind.isWord = true
  · have htouches : l.node.span.touches offset = true := by
      simp only [Span.touches, Bool.and_eq_true, decide_eq_true_eq]
      exact ⟨h.contains.1, Nat.le_of_lt h.contains.2⟩
    -- an earlier word that touches the offset would be the token itself, but it ends before
    have hle : ∀ m ∈ pre ++ l.node :: post, m.span.start ≤ m.span.stop := fun m hm =>
      Nat.le_of_lt (h.lt_stop m (hmem m hm))
    have hpre : ∀ m ∈ pre, (!(m.kind.isWord && m.span.touches offset)) = true := by
      intro m hm
      rw [Bool.not_eq_true', Bool.eq_false_iff, ne_eq, Bool.and_eq_true]
      rintro ⟨hw, ht⟩
      have hnode := hmem m (List.mem_append_left _ hm)
      have hbefore := (htiles.around hle).2.2.1 m hm
      have hlt := h.lt_stop m hnode
      rw [h.word m hnode hw ht] at hbefore hlt
      omega
    have hfind : (n.children.find? fun c => c.kind.isWord && c.span.touches offset) =
        some l.node := by
      rw [List.find?_eq_some_iff_append]
      exact ⟨by rw [hword, htouches]; rfl, pre, post, hchildren, hpre⟩
    exact (Node.findAt_of_find?_eq_some above hfind).trans hl.symm
  · have hstart := h.start.resolve_left hword
    have haround : l.node.isAround offset = true := by
      rw [Node.isAround, h.token, if_neg Bool.false_ne_true, Span.contains, Bool.and_eq_true,
        decide_eq_true_eq, decide_eq_true_eq]
      exact h.contains
    have hnone : (n.children.find? fun c => c.kind.isWord && c.span.touches offset) = none := by
      rw [hchildren]
      refine h.find?_eq_none hmem fun m _ hw hm => hword ?_
      rwa [← hm]
    refine Node.findAt_of_find?_eq_none hnone ?_
    rw [hchildren, Node.findAround?_append (h.isAround_before htiles hmem hstart) haround, h.token,
      if_neg Bool.false_ne_true, ← hl]

/-- If the token is inside a child of the node, the search goes on there. -/
theorem findAt_of_inside (h : t.Targets offset l) {n c : Node} {above pre post : List Node}
    (hchildren : n.children = pre ++ c :: post)
    (htiles : Tiles n.span.start n.span.stop (pre ++ c :: post))
    (hmem : ∀ m ∈ pre ++ c :: post, m ∈ t.nodes) (hc : c.kind.isNested = true)
    (hstart : c.span.start < offset) (hstop : offset < c.span.stop) :
    n.findAt offset above = c.findAt offset (n :: above) := by
  have haround : c.isAround offset = true := by
    simp [Node.isAround, hc, hstart, Span.contains, Nat.le_of_lt hstart, hstop]
  have hle : ∀ m ∈ pre ++ c :: post, m.span.start ≤ m.span.stop := fun m hm =>
    Nat.le_of_lt (h.lt_stop m (hmem m hm))
  -- the token lies within `c`, so it is no node before `c` and none after it
  have hne : ∀ m ∈ pre ++ c :: post, m.kind.isWord = true → m ≠ l.node := by
    rintro m hm hw rfl
    obtain ⟨hfirst, hlast⟩ := h.contains
    rcases List.mem_append.1 hm with hm | hm
    · have hbefore := (htiles.around hle).2.2.1 _ hm
      omega
    rcases List.mem_cons.1 hm with hm | hm
    · rw [← hm, h.token] at hc
      cases hc
    · have hafter := (htiles.around hle).2.2.2 _ hm
      omega
  have hnone : (n.children.find? fun c => c.kind.isWord && c.span.touches offset) = none := by
    rw [hchildren]
    exact h.find?_eq_none hmem hne
  exact Node.findAt_eq_findAt_child hnone hchildren (h.isAround_before htiles hmem hstart) hc haround

mutual

/-- A search inside a node around the token ends at the token. -/
theorem findAt_eq (h : t.Targets offset l) (above : List Node) : (n : Node) →
    n.preorder ⊆ t.nodes → l ∈ Node.locationsAll (n :: above) n.children →
      n.findAt offset above = l
  | ⟨id, kind, span, ns⟩, hsub, hl => by
    rw [Node.preorder] at hsub
    obtain ⟨c, hc, hlc⟩ := Node.mem_locationsAll.1 hl
    have hfilled := h.filled _ (hsub List.mem_cons_self) (List.ne_nil_of_mem hc)
    have hsubAll : Node.preorderAll ns ⊆ t.nodes := List.subset_of_cons_subset hsub
    have hmem : ∀ m ∈ ns, m.preorder ⊆ t.nodes := fun m hm k hk =>
      hsubAll (Node.mem_preorderAll.2 ⟨m, hm, hk⟩)
    have hinside := findAt_eq_of_mem h (⟨id, kind, span, ns⟩ :: above) ns hmem c hc
    obtain ⟨pre, post, rfl⟩ := List.append_of_mem hc
    have hnodes : ∀ m ∈ pre ++ c :: post, m ∈ t.nodes := fun m hm => hmem m hm m.mem_preorder_self
    obtain ⟨cid, ckind, cspan, cs⟩ := c
    rw [Node.locations] at hlc
    rcases List.mem_cons.1 hlc with rfl | hlc
    · exact h.findAt_of_mem_children rfl rfl hfilled hnodes
    · obtain ⟨path, hpath⟩ := Node.above_of_mem_locationsAll hlc
      obtain ⟨hnested, hstart⟩ := h.inside ⟨cid, ckind, cspan, cs⟩ (by simp [hpath])
      have hstop : offset < cspan.stop := by
        have hin : l.node ∈ Node.preorder ⟨cid, ckind, cspan, cs⟩ := by
          rw [Node.preorder, ← Node.map_node_locationsAll]
          exact List.mem_cons_of_mem _ (List.mem_map_of_mem hlc)
        have hspan := Node.span_of_mem_preorder _ (fun k hk => h.filled k (hmem _ hc hk))
          (fun k hk => Nat.le_of_lt (h.lt_stop k (hmem _ hc hk))) hin
        exact Nat.lt_of_lt_of_le h.contains.2 hspan.2
      rw [h.findAt_of_inside rfl hfilled hnodes hnested hstart hstop]
      exact hinside hlc

theorem findAt_eq_of_mem (h : t.Targets offset l) (above : List Node) : (ns : List Node) →
    (∀ n ∈ ns, n.preorder ⊆ t.nodes) → ∀ c ∈ ns, l ∈ Node.locationsAll (c :: above) c.children →
      c.findAt offset above = l
  | [], _, _, hc, _ => absurd hc List.not_mem_nil
  | n :: ns, hsub, c, hc, hl => by
    rcases List.mem_cons.1 hc with hc | hc
    · rw [hc] at hl ⊢
      exact findAt_eq h above n (hsub n List.mem_cons_self) hl
    · exact findAt_eq_of_mem h above ns (fun m hm => hsub m (List.mem_cons_of_mem _ hm)) c hc hl

end

end Tree.Targets

end Typeahead
