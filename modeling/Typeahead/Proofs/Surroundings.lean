import Typeahead.Proofs.Recovery

/-!
# What is around a location

The locations of a tree are closed under going up and down: those of the children
of a location, and those of the nodes around it, are locations of the tree again.

* `children_subset_locations`: the children of a location;
* `parent_mem_locations`: its parent, of which it is a child;
* `selfAndAncestors_subset_locations`: all nodes around it;
* `Location.before_eq`: the siblings before it.
-/

namespace Typeahead

namespace Node

theorem locations_eq (n : Node) (above : List Node) :
    n.locations above = ⟨n, above⟩ :: locationsAll (n :: above) n.children := by
  obtain ⟨id, kind, span, children⟩ := n
  rw [locations]

mutual

theorem children_subset_locations {l : Location} (above : List Node) : (n : Node) →
    l ∈ n.locations above → l.children ⊆ n.locations above
  | ⟨id, kind, span, ns⟩, hl => by
    rw [locations] at hl ⊢
    refine List.subset_cons_of_subset _ ?_
    rcases List.mem_cons.1 hl with rfl | hl
    · intro k hk
      obtain ⟨c, hc, rfl⟩ := List.mem_map.1 hk
      refine mem_locationsAll.2 ⟨c, hc, ?_⟩
      rw [locations_eq]
      exact List.mem_cons_self
    · exact children_subset_locationsAll _ ns hl

theorem children_subset_locationsAll {l : Location} (above : List Node) : (ns : List Node) →
    l ∈ locationsAll above ns → l.children ⊆ locationsAll above ns
  | [], hl => absurd hl (by rw [locationsAll]; exact List.not_mem_nil)
  | n :: ns, hl => by
    rw [locationsAll] at hl ⊢
    rcases List.mem_append.1 hl with hl | hl
    · exact List.subset_append_of_subset_left _ (children_subset_locations above n hl)
    · exact List.subset_append_of_subset_right _ (children_subset_locationsAll above ns hl)

end

mutual

/-- A location below a node is a child of another one there. -/
theorem exists_parent_of_mem_locations {l : Location} (above : List Node) : (n : Node) →
    l ∈ n.locations above → l = ⟨n, above⟩ ∨ ∃ p ∈ n.locations above, l ∈ p.children
  | ⟨id, kind, span, ns⟩, hl => by
    rw [locations] at hl ⊢
    rcases List.mem_cons.1 hl with rfl | hl
    · exact .inl rfl
    rcases exists_parent_of_mem_locationsAll _ ns hl with ⟨c, hc, rfl⟩ | ⟨p, hp, hl⟩
    · exact .inr ⟨_, List.mem_cons_self, List.mem_map.2 ⟨c, hc, rfl⟩⟩
    · exact .inr ⟨p, List.mem_cons_of_mem _ hp, hl⟩

theorem exists_parent_of_mem_locationsAll {l : Location} (above : List Node) : (ns : List Node) →
    l ∈ locationsAll above ns →
      (∃ n ∈ ns, l = ⟨n, above⟩) ∨ ∃ p ∈ locationsAll above ns, l ∈ p.children
  | [], hl => absurd hl (by rw [locationsAll]; exact List.not_mem_nil)
  | n :: ns, hl => by
    rw [locationsAll] at hl ⊢
    rcases List.mem_append.1 hl with hl | hl
    · rcases exists_parent_of_mem_locations above n hl with rfl | ⟨p, hp, hl⟩
      · exact .inl ⟨n, List.mem_cons_self, rfl⟩
      · exact .inr ⟨p, List.mem_append_left _ hp, hl⟩
    · rcases exists_parent_of_mem_locationsAll above ns hl with ⟨m, hm, rfl⟩ | ⟨p, hp, hl⟩
      · exact .inl ⟨m, List.mem_cons_of_mem _ hm, rfl⟩
      · exact .inr ⟨p, List.mem_append_right _ hp, hl⟩

end

end Node

namespace Tree

variable {t : Tree} {l : Location}

theorem children_subset_locations (hl : l ∈ t.locations) : l.children ⊆ t.locations :=
  Node.children_subset_locations [] t.root hl

theorem below_of_mem_children {n : Node} (hl : l ∈ t.locations) (hn : n ∈ l.node.children) :
    ⟨n, l.node :: l.above⟩ ∈ t.below := by
  have hchild := children_subset_locations hl (List.mem_map.2 ⟨n, hn, rfl⟩)
  rw [locations_eq] at hchild
  rcases List.mem_cons.1 hchild with h | h
  · cases h
  · exact h

theorem parent_mem_locations {v : Node} {above : List Node} (hl : l ∈ t.locations)
    (habove : l.above = v :: above) : ⟨v, above⟩ ∈ t.locations ∧ l.node ∈ v.children := by
  rcases Node.exists_parent_of_mem_locations [] t.root hl with rfl | ⟨p, hp, hl⟩
  · cases habove
  · obtain ⟨c, hc, rfl⟩ := List.mem_map.1 hl
    obtain ⟨rfl, rfl⟩ := List.cons.inj habove
    exact ⟨hp, hc⟩

theorem selfAndAncestors_subset_locations (hl : l ∈ t.locations) :
    l.selfAndAncestors ⊆ t.locations := by
  obtain ⟨n, above⟩ := l
  induction above generalizing n with
  | nil =>
    intro a ha
    rw [List.mem_singleton.1 ha]
    exact hl
  | cons v above ih =>
    intro a ha
    rcases List.mem_cons.1 ha with rfl | ha
    · exact hl
    · exact ih v (parent_mem_locations hl rfl).1 ha

theorem mem_locations_of_enclosingForm? {f : Location} (hl : l ∈ t.locations)
    (hf : l.enclosingForm? = some f) : f ∈ t.locations :=
  selfAndAncestors_subset_locations hl (List.mem_of_find?_eq_some hf)

end Tree

/-- The siblings before a node are those with other numbers that stand before it. -/
theorem Location.before_eq {l : Location} {v : Node} {above pre post : List Node}
    (habove : l.above = v :: above) (hchildren : v.children = pre ++ l.node :: post)
    (hids : ∀ m ∈ pre, m.id ≠ l.node.id) : l.before = pre.reverse := by
  have hpre : ∀ m ∈ pre, (m.id != l.node.id) = true := fun m hm => bne_iff_ne.2 (hids m hm)
  rw [before, habove]
  simp only
  rw [hchildren, List.takeWhile_append_of_pos hpre, List.takeWhile_cons, bne_self_eq_false,
    if_neg Bool.false_ne_true, List.append_nil]

mutual

/-- What is around a node is around the leaves inside it. -/
theorem Node.subset_trail_of_mem_leaves {leaf : Leaf} (trail : List Heading) : (n : Node) →
    leaf ∈ n.leaves trail → trail ⊆ leaf.trail
  | ⟨_, _, _, []⟩, h => by
    rw [leaves] at h
    rw [List.mem_singleton.1 h]
    exact List.Subset.refl _
  | ⟨id, kind, span, n :: ns⟩, h => by
    rw [leaves] at h
    exact List.Subset.trans (List.subset_cons_self _ _)
      (Node.subset_trail_of_mem_leavesAll _ (n :: ns) h)

theorem Node.subset_trail_of_mem_leavesAll {leaf : Leaf} (trail : List Heading) :
    (ns : List Node) → leaf ∈ leavesAll trail ns → trail ⊆ leaf.trail
  | [], h => absurd h (by rw [leavesAll]; exact List.not_mem_nil)
  | n :: ns, h => by
    rw [leavesAll] at h
    rcases List.mem_append.1 h with h | h
    · exact Node.subset_trail_of_mem_leaves trail n h
    · exact Node.subset_trail_of_mem_leavesAll trail ns h

end

end Typeahead
