import Typeahead.Proofs.BareCursor

/-!
# Ordinals

The ordinal of a cursor in a node around it is the number of active forms before the
child that leads to the cursor, whether that child is an active form itself or not
(`Cursor.StandsIn.ordinal_eq`). So it depends on the siblings before that child only,
which are the same for a cursor inside a blank with a placeholder and without.

* `Tree.exists_activeForms_eq`: the active forms around a location;
* `Cursor.StandsIn.ordinal_eq`: the ordinal in a node around the cursor;
* `Cursor.ordinals_inSource`: ordinals with and without a placeholder.
-/

namespace Typeahead

/-- The active forms among the siblings before a location. -/
def Location.activeBefore (l : Location) : List Node := activeAmong [] l.before.reverse

/-- The form at a location, if it is an active one. -/
def Location.activeSelf (l : Location) : List Node :=
  if l.node.kind.isForm && !l.isDeactivated then [l.node] else []

theorem Location.activeSelf_of_isActive {l : Location} (hform : l.node.kind.isForm = true)
    (hactive : l.isDeactivated = false) : l.activeSelf = [l.node] := by
  rw [activeSelf, hform, hactive]
  rfl

theorem Location.activeSelf_cases (l : Location) : l.activeSelf = [l.node] ∨ l.activeSelf = [] := by
  rw [activeSelf]
  split
  · exact .inl rfl
  · exact .inr rfl

theorem activeAmong_cons (before : List Kind) (n : Node) (ns : List Node) :
    activeAmong before (n :: ns) =
      (if n.kind.isForm && !deactivates before n.kind then [n] else []) ++
        activeAmong (n.kind :: before) ns := by
  rw [activeAmong, judgeForms]
  cases hform : n.kind.isForm with
  | false => rfl
  | true => cases hoff : deactivates before n.kind <;> simp [activeAmong]

namespace Tree

variable {cs : List Char} {l : Location} {n : Node} {above : List Node}

/-- The active forms around a location: those before it, itself if it is one, and those
    after it. -/
theorem exists_activeForms_eq (hcs : cs ≠ []) (hl : l ∈ (Tree.read cs).locations)
    (habove : l.above = n :: above) : ∃ later,
      n.activeForms = l.activeBefore ++ (l.activeSelf ++ later) ∧
      (∀ m ∈ l.activeBefore, m.span.stop ≤ l.node.span.start) ∧
      ∀ m ∈ later, l.node.span.stop ≤ m.span.start := by
  obtain ⟨pre, post, hchildren⟩ := List.append_of_mem (parent_mem_locations hl habove).2
  obtain ⟨hbefore, hpre, hpost⟩ := siblings_of_children_eq hcs hl habove hchildren
  have hactive : l.activeBefore = activeAmong [] pre := by
    rw [Location.activeBefore, hbefore, List.reverse_reverse]
  have hkinds : (pre.map (·.kind)).reverse ++ [] = l.before.map (·.kind) := by
    rw [hbefore, List.map_reverse, List.append_nil]
  refine ⟨activeAmong (l.node.kind :: l.before.map (·.kind)) post, ?_, fun m hm => ?_,
    fun m hm => hpost m (activeAmong_subset _ _ hm)⟩
  · rw [Node.activeForms_eq_activeAmong, hchildren, activeAmong_append, activeAmong_cons, hkinds,
      hactive]
    rfl
  · rw [hactive] at hm
    exact hpre m (activeAmong_subset _ _ hm)

end Tree

namespace Cursor

/-- The cursor stands in its node, or at one of its ends. -/
structure StandsIn (c : Cursor) (cs : List Char) : Prop where
  ne_nil : cs ≠ []
  mem : c.location ∈ (Tree.read cs).locations
  start_le : c.location.node.span.start ≤ c.offset
  le_stop : c.offset ≤ c.location.node.span.stop

namespace StandsIn

variable {c : Cursor} {cs : List Char} {l : Location}

/-- The nodes around a cursor are around the offset and around its node. -/
theorem span_of_mem (h : c.StandsIn cs) (hl : l ∈ c.location.selfAndAncestors) :
    l.node.span.start ≤ c.location.node.span.start ∧
      c.location.node.span.stop ≤ l.node.span.stop := by
  rcases List.mem_cons.1 hl with rfl | hl
  · exact ⟨Nat.le_refl _, Nat.le_refl _⟩
  obtain ⟨path, happ⟩ := Location.exists_of_mem_chain hl
  obtain ⟨m, hm, -, -, -, hstart, hstop⟩ := Tree.exists_child_on_path h.ne_nil h.mem happ
  have hnode : l.node ∈ (Tree.read cs).nodes :=
    Tree.mem_nodes_of_mem_above h.mem (by simp [happ])
  have hspan := Tree.span_within h.ne_nil hnode (Node.child_mem_preorder hm)
  exact ⟨Nat.le_trans hspan.1 hstart, Nat.le_trans hstop hspan.2⟩

/-- A cursor is not within a node that ends before a node around the cursor, or starts
    after it. -/
theorem isWithin_eq_false (h : c.StandsIn cs) (hl : l ∈ c.location.selfAndAncestors) {m : Node}
    (hm : m ∈ (Tree.read cs).nodes)
    (hspan : m.span.stop ≤ l.node.span.start ∨ l.node.span.stop ≤ m.span.start) :
    c.location.isWithin m = false := by
  rw [Bool.eq_false_iff, ne_eq, Tree.isWithin_iff_mem h.mem hm]
  intro hmem
  obtain ⟨k, hk, rfl⟩ : ∃ k ∈ c.location.selfAndAncestors, k.node = m :=
    Tree.exists_mem_chain hmem
  have hlt := Tree.lt_stop_read h.ne_nil _ (Tree.mem_nodes_of_mem_locations h.mem)
  have hself := h.span_of_mem hl
  have hother := h.span_of_mem hk
  omega

/-- The ordinal of a cursor in a node around it is the number of active forms before
    the child that leads to it. -/
theorem ordinal_eq (h : c.StandsIn cs) (hl : l ∈ c.location.selfAndAncestors) {n : Node}
    {above : List Node} (habove : l.above = n :: above) :
    c.ordinal n = l.activeBefore.length := by
  have hmem := Tree.selfAndAncestors_subset_locations h.mem hl
  obtain ⟨later, happ, hbefore, hlater⟩ := Tree.exists_activeForms_eq h.ne_nil hmem habove
  have hnode : ∀ m ∈ n.activeForms, m ∈ (Tree.read cs).nodes := fun m hm =>
    Tree.mem_nodes_of_mem_children
      (Tree.mem_nodes_of_mem_locations (Tree.parent_mem_locations hmem habove).1)
      (n.activeForms_subset_children hm)
  rw [happ] at hnode
  have hspan := h.span_of_mem hl
  have hstart := h.start_le
  have hstop := h.le_stop
  have hnone : l.activeBefore.findIdx? (c.location.isWithin ·) = none :=
    List.findIdx?_eq_none_iff.2 fun m hm =>
      h.isWithin_eq_false hl (hnode m (by simp [hm])) (.inl (hbefore m hm))
  rw [ordinal, ordinalAmong, happ, List.findIdx?_append, hnone]
  rcases l.activeSelf_cases with hself | hself
  · -- the child is the form that holds the cursor
    have hwithin : c.location.isWithin l.node = true := by
      refine (Tree.isWithin_iff_mem h.mem (Tree.mem_nodes_of_mem_locations hmem)).2 ?_
      rcases List.mem_cons.1 hl with rfl | hl
      · exact List.mem_cons_self
      · obtain ⟨as, happ⟩ := Location.exists_of_mem_chain hl
        simp [happ]
    rw [hself, List.singleton_append, List.findIdx?_cons, hwithin]
    simp
  · -- no form holds the cursor: those before it end there
    have hnone' : later.findIdx? (c.location.isWithin ·) = none :=
      List.findIdx?_eq_none_iff.2 fun m hm =>
        h.isWithin_eq_false hl (hnode m (by simp [hm])) (.inr (hlater m hm))
    have hall : l.activeBefore.countP (·.span.stop ≤ c.offset) = l.activeBefore.length := by
      rw [List.countP_eq_length]
      intro m hm
      have := hbefore m hm
      exact decide_eq_true (by omega)
    have hzero : later.countP (·.span.stop ≤ c.offset) = 0 := by
      rw [List.countP_eq_zero]
      intro m hm
      have := hlater m hm
      have := Tree.lt_stop_read h.ne_nil m (hnode m (by simp [hm]))
      rw [decide_eq_true_eq]
      omega
    rw [hself, List.nil_append, hnone', List.countP_append, hall, hzero]
    rfl

end StandsIn

/-- The collections around a cursor, innermost first. -/
def collections (c : Cursor) : List Node :=
  (c.location.selfAndAncestors.map (·.node)).filter (·.kind.isCollection)

end Cursor

/-! ### Cursors in a place -/

theorem Location.map_node_chain (ns : List Node) : (chain ns).map (·.node) = ns := by
  induction ns with
  | nil => rfl
  | cons n ns ih => rw [chain, List.map_cons, ih]

namespace Place

open Cursor

variable {cs : List Char} {offset : Nat} (w : Place cs offset) (config : Config)

theorem standsIn : (ofLocation (Tree.read cs) config w.token offset).StandsIn cs :=
  ⟨w.ne_nil, w.mem, w.start_le, Nat.le_of_lt w.lt_stop⟩

/-- In the node around the place, the cursor comes after the forms before the place. -/
theorem ordinal_node :
    (ofLocation (Tree.read cs) config w.token offset).ordinal w.node = w.done.length := by
  obtain ⟨child, post, hchildren, -, hmem, -, -⟩ := w.exists_child
  have hbefore := (Tree.siblings_of_children_eq w.ne_nil
    (Tree.selfAndAncestors_subset_locations w.mem hmem) rfl hchildren).1
  rw [(w.standsIn config).ordinal_eq hmem rfl, Location.activeBefore, hbefore,
    List.reverse_reverse]
  rfl

/-- The collections around a token are those from the node around the place on. -/
theorem collections_eq (hkind : w.token.node.kind.isCollection = false) :
    (ofLocation (Tree.read cs) config w.token offset).collections =
      (w.node :: w.outer).filter (·.kind.isCollection) := by
  have hself : (ofLocation (Tree.read cs) config w.token offset).location.selfAndAncestors.map
      (·.node) = w.token.node :: w.token.above :=
    Location.map_node_chain (w.token.node :: w.token.above)
  have hpath : w.path.filter (·.kind.isCollection) = [] := by
    rw [List.filter_eq_nil_iff]
    intro q hq
    rw [w.kind_path q hq]
    decide
  rw [collections, hself, List.filter_cons_of_neg (by simp [hkind]), w.above_eq,
    List.filter_append, hpath, List.nil_append]

end Place

namespace Twins

open Cursor

variable {u p v : List Char} (tw : Twins u p v) (config : Config)

/-- A node around the place starts where it did. -/
theorem start_move {n : Node} (hn : n ∈ tw.bare.node :: tw.bare.outer) :
    (n.move tw.gap).span.start = n.span.start := by
  rcases tw.move_cases (tw.outside_of_mem hn).mem_nodes with ⟨-, h⟩ | rfl | ⟨-, -, h⟩
  · rw [h]
  · rw [tw.move_node]
    exact congrArg Heading.start tw.heading_eq
  · have hle : n.heading.start ≤ tw.gap.offset := by
      rw [tw.offset_eq]
      exact tw.start_le_of_mem hn
    rw [h, Heading.move, if_pos hle]
    rfl

/-- The cursor has the same ordinal in a node around the place with the word as
    without it. -/
theorem ordinal_move {n : Node} (hn : n ∈ tw.bare.node :: tw.bare.outer) :
    (ofLocation (Tree.read (u ++ (p ++ v))) config tw.full.token (byteLength u)).ordinal
        (n.move tw.gap) =
      (ofLocation (Tree.read (u ++ v)) config tw.bare.token (byteLength u)).ordinal n := by
  rcases List.mem_cons.1 hn with rfl | hn
  · rw [tw.move_node, tw.full.ordinal_node, tw.bare.ordinal_node, tw.done_eq]
  -- the child that leads to the place is one of the levels
  obtain ⟨as, bs, houter⟩ := List.append_of_mem hn
  have hlevels : ∃ l ∈ tw.levels, l.above = n :: bs := by
    rcases List.eq_nil_or_concat as with rfl | ⟨as, a, rfl⟩
    · exact ⟨_, List.mem_cons_self, houter⟩
    · refine ⟨⟨a, n :: bs⟩, List.mem_cons_of_mem _ ?_, rfl⟩
      rw [houter, List.concat_eq_append, List.append_assoc]
      exact Location.mem_chain_append a as (n :: bs)
  obtain ⟨l, hl, habove⟩ := hlevels
  have hbare : l ∈ tw.bare.token.selfAndAncestors := by
    obtain ⟨ls, happ, -⟩ := tw.bare.exists_ancestors
    exact List.mem_cons_of_mem _ (happ ▸ List.mem_append_right ls hl)
  have hfull : l.move tw.gap ∈ tw.full.token.selfAndAncestors := by
    obtain ⟨ls, happ, -⟩ := tw.full.exists_ancestors
    have hmove : tw.full.node :: tw.full.outer =
        (tw.bare.node :: tw.bare.outer).map (·.move tw.gap) := by
      rw [List.map_cons, tw.move_node, tw.outer_eq]
    rw [hmove, Location.chain_map_move] at happ
    exact List.mem_cons_of_mem _ (happ ▸ List.mem_append_right ls (List.mem_map_of_mem hl))
  have habove' : (l.move tw.gap).above = n.move tw.gap :: bs.map (·.move tw.gap) := by
    rw [Location.move, habove]
    rfl
  rw [(tw.full.standsIn config).ordinal_eq hfull habove',
    (tw.bare.standsIn config).ordinal_eq hbare habove, Location.activeBefore,
    Location.activeBefore, tw.before_move hl]

end Twins

namespace Cursor

/-- Inside a blank, the collections around the cursor with the placeholder are those
    around the cursor without it: one for one, of the same kinds and with the same
    starts, and the cursor has the same ordinal in them. -/
theorem ordinals_inSource {config : Config}
    (hconfig : config.placeholder = ({} : Config).placeholder) {cs : List Char} {offset : Nat}
    (hoffset : isBoundary cs offset = true) {blank : Node} (hblank : blank ∈ (Tree.read cs).nodes)
    (hkind : blank.kind = .whitespace) (hstart : blank.span.start < offset)
    (hstop : offset < blank.span.stop) :
    ∃ c t' c', locate (Tree.read cs) config offset = .ok c ∧
      inSource config cs offset = .ok (t', c') ∧
      c'.collections.map (fun n => (n.kind, n.span.start, c'.ordinal n)) =
        c.collections.map (fun n => (n.kind, n.span.start, c.ordinal n)) := by
  obtain ⟨u, v, tw, rfl, rfl, hlocate, hinsert⟩ :=
    exists_twins_inSource hconfig hoffset hblank hkind hstart hstop
  have hbare : tw.bare.token.node.kind.isCollection = false := by
    rw [tw.kind_bare]
    rfl
  have hfull : tw.full.token.node.kind.isCollection = false := by
    rw [tw.kind_full]
    exact Kind.isCollection_of_isAtom (isAtom_atomKind _)
  refine ⟨_, _, _, hlocate, hinsert, ?_⟩
  have hkinds : ∀ n ∈ tw.bare.node :: tw.bare.outer, (n.move tw.gap).kind = n.kind :=
    fun n hn => tw.kind_move (tw.outside_of_mem hn).mem_nodes
  have hmove : (tw.full.node :: tw.full.outer).filter (·.kind.isCollection) =
      ((tw.bare.node :: tw.bare.outer).filter (·.kind.isCollection)).map (·.move tw.gap) := by
    rw [← tw.move_node, tw.outer_eq, ← List.map_cons, List.filter_map]
    refine congrArg (List.map _) (List.filter_congr fun n hn => ?_)
    rw [Function.comp_apply, hkinds n hn]
  rw [tw.full.collections_eq config hfull, tw.bare.collections_eq config hbare, hmove,
    List.map_map]
  refine List.map_congr_left fun n hn => ?_
  have hmem := (List.mem_filter.1 hn).1
  rw [Function.comp_apply, hkinds n hmem, tw.start_move hmem, tw.ordinal_move config hmem]

/-- Inside a quoted list, next to a form that a marker deactivates. -/
theorem ordinals_inSource_quoted :
    let cs := "(f #_ a [1 '(c   d)] e)".toList
    let t := Tree.read cs
    isBoundary cs 15 = true ∧
    (∃ blank ∈ t.nodes, blank.kind = .whitespace ∧ blank.span.start < 15 ∧
      15 < blank.span.stop) ∧
    ∃ c t' c', locate t {} 15 = .ok c ∧ inSource {} cs 15 = .ok (t', c') ∧
      c'.collections.map (fun n => (n.kind, n.span.start, c'.ordinal n)) =
        [(.list, 12, 1), (.vector, 8, 1), (.list, 0, 1)] ∧
      c.collections.map (fun n => (n.kind, n.span.start, c.ordinal n)) =
        [(.list, 12, 1), (.vector, 8, 1), (.list, 0, 1)] := by
  intro cs t
  have hoffset : isBoundary cs 15 = true := by decide
  have hblank : ∃ blank ∈ t.nodes, blank.kind = .whitespace ∧ blank.span.start < 15 ∧
      15 < blank.span.stop := by decide +kernel
  have hfull : (inSource {} cs 15).toOption.map (fun x =>
      x.2.collections.map fun n => (n.kind, n.span.start, x.2.ordinal n)) =
        some [(.list, 12, 1), (.vector, 8, 1), (.list, 0, 1)] := by
    decide +kernel
  obtain ⟨blank, hmem, hkind, hstart, hstop⟩ := hblank
  obtain ⟨c, t', c', hc, hc', heq⟩ := ordinals_inSource rfl hoffset hmem hkind hstart hstop
  rw [hc'] at hfull
  have hfull := Option.some.inj hfull
  exact ⟨hoffset, ⟨blank, hmem, hkind, hstart, hstop⟩, c, t', c', hc, hc', hfull,
    heq.symm.trans hfull⟩

end Cursor

end Typeahead
