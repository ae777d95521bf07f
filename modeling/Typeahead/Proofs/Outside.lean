import Typeahead.Proofs.Rules
import Typeahead.Proofs.Twins

/-!
# What a word leaves alone

Putting a word into a blank changes the innermost node around it that is no quoted
form. Every other node outside it, or around it, is asked the same questions with
the same answers before and after: its kind, its active forms, its head, whether it
may bind names, and the names that its patterns bind.

* `Place.span_cases`: a node ends before the place, starts after it, or is around it;
* `Twins.activeForms_move`, `Twins.rule?_move`, `Twins.isLive_move`: what is asked of a
  list;
* `Twins.seen_move`: the names of a clause whose nodes are outside.
-/

namespace Typeahead

/-- Seen from a node that holds an offset, every node is inside it or around it, or ends before the
    offset or starts after it. -/
theorem Tree.span_cases_of_holds {cs : List Char} (hcs : cs ≠ []) {offset : Nat} {m : Node}
    {above : List Node} (hm : ⟨m, above⟩ ∈ (Tree.read cs).locations)
    (hstart : m.span.start ≤ offset) (hstop : offset < m.span.stop) {n : Node}
    (hn : n ∈ (Tree.read cs).nodes) :
    n ∈ m.preorder ∨ n.span.stop ≤ offset ∨ offset < n.span.start ∨ n ∈ above := by
  induction above generalizing m with
  | nil =>
    rw [Tree.nodes, ← Tree.eq_root_of_mem_locations hm] at hn
    exact .inl hn
  | cons q above ih =>
    obtain ⟨hq, hchild⟩ := Tree.parent_mem_locations hm rfl
    have hnode : q ∈ (Tree.read cs).nodes := Tree.mem_nodes_of_mem_locations hq
    have hmem : ∀ d ∈ q.children, d ∈ (Tree.read cs).nodes := fun d hd =>
      Tree.mem_nodes_of_mem_children hnode hd
    have hspan := Tree.span_within hcs hnode (Node.child_mem_preorder hchild)
    rcases ih hq (Nat.le_trans hspan.1 hstart) (Nat.lt_of_lt_of_le hstop hspan.2) with
      hin | hend | hbegin | habove
    · -- inside the parent: the parent itself, or something in a child before, at or after `m`
      have htiles := Tree.filled_read cs q hnode (List.ne_nil_of_mem hchild)
      obtain ⟨pre, post, happ⟩ := List.append_of_mem hchild
      rw [happ] at htiles
      obtain ⟨-, -, hpre, hpost⟩ := htiles.around fun d hd =>
        Nat.le_of_lt (Tree.lt_stop_read hcs d (hmem d (happ ▸ hd)))
      rw [Node.preorder_eq] at hin
      rcases List.mem_cons.1 hin with rfl | hin
      · exact .inr (.inr (.inr List.mem_cons_self))
      obtain ⟨d, hd, hin⟩ := Node.mem_preorderAll.1 hin
      have hwithin := Tree.span_within hcs (hmem d hd) hin
      have hd : d ∈ pre ++ m :: post := happ ▸ hd
      rcases List.mem_append.1 hd with hd | hd
      · exact .inr (.inl (Nat.le_trans hwithin.2 (Nat.le_trans (hpre d hd) hstart)))
      rcases List.mem_cons.1 hd with rfl | hd
      · exact .inl hin
      · exact .inr (.inr (.inl (Nat.lt_of_lt_of_le hstop (Nat.le_trans (hpost d hd) hwithin.1))))
    · exact .inr (.inl hend)
    · exact .inr (.inr (.inl hbegin))
    · exact .inr (.inr (.inr (List.mem_cons_of_mem _ habove)))

namespace Place

variable {cs : List Char} {offset : Nat} (w : Place cs offset)

/-- A node ends before the place, starts after it, or is around it. -/
theorem span_cases {n : Node} (hn : n ∈ (Tree.read cs).nodes) :
    n.span.stop ≤ offset ∨ offset < n.span.start ∨ n ∈ w.token.node :: w.token.above := by
  rcases Tree.span_cases_of_holds w.ne_nil w.mem w.start_le w.lt_stop hn with
    hin | hend | hbegin | habove
  · -- a token has nothing inside
    rw [Node.eq_of_mem_preorder w.children_eq hin]
    exact .inr (.inr List.mem_cons_self)
  · exact .inl hend
  · exact .inr (.inl hbegin)
  · exact .inr (.inr (List.mem_cons_of_mem _ habove))

/-- What ends before the place is not around it. -/
theorem isWithin_eq_false {n : Node} (hn : n ∈ (Tree.read cs).nodes)
    (hstop : n.span.stop ≤ offset) : w.token.isWithin n = false :=
  Tree.isWithin_eq_false_of_stop_le w.ne_nil w.mem w.lt_stop hn hstop

end Place

/-- What starts after an offset binds no name before it. -/
theorem Tree.filter_boundNames_eq_nil {cs : List Char} (hcs : cs ≠ []) {n : Node} {offset : Nat}
    (hn : n ∈ (Tree.read cs).nodes) (hstart : offset < n.span.start) :
    ((Tree.read cs).boundNames n).filter (·.span.stop ≤ offset) = [] := by
  rw [List.filter_eq_nil_iff]
  intro s hs
  have hinside := (mem_boundNames_iff.1 hs).mem_preorder
  have hspan := span_within hcs hn hinside
  have hlt := lt_stop_read hcs s (Node.preorder_subset_of_mem _ hn hinside)
  rw [decide_eq_true_eq]
  omega

theorem Tree.children_eq_of_isWord {cs : List Char} {n : Node} (hn : n ∈ (Tree.read cs).nodes)
    (hword : n.kind.isWord = true) : n.children = [] :=
  have hkind := Kind.ne_root_of_isWord hword
  children_eq_nil hn hkind.1 hkind.2

mutual

/-- The names that a pattern binds depend on the texts inside it. -/
theorem Tree.boundNames_congr {t t' : Tree} : (n : Node) →
    (∀ m ∈ n.preorder, t'.text m = t.text m) → t'.boundNames n = t.boundNames n
  | ⟨id, kind, span, children⟩, h => by
    rw [Node.preorder] at h
    have hself := h _ List.mem_cons_self
    have hinside := Tree.boundNamesAmong_congr children fun m hm => h m (List.mem_cons_of_mem _ hm)
    rw [Tree.boundNames.eq_def, Tree.boundNames.eq_def]
    dsimp only
    rw [hself, hinside]

theorem Tree.boundNamesAmong_congr {t t' : Tree} : (ns : List Node) →
    (∀ m ∈ Node.preorderAll ns, t'.text m = t.text m) →
      ∀ before, t'.boundNamesAmong before ns = t.boundNamesAmong before ns
  | [], _, _ => by rw [Tree.boundNamesAmong, Tree.boundNamesAmong]
  | n :: ns, h, before => by
    rw [Node.preorderAll] at h
    rw [Tree.boundNamesAmong, Tree.boundNamesAmong,
      Tree.boundNames_congr n fun m hm => h m (List.mem_append_left _ hm),
      Tree.boundNamesAmong_congr ns fun m hm => h m (List.mem_append_right _ hm)]

end

theorem judgeForms_map {f : Node → Node} {ns : List Node} (hf : ∀ n ∈ ns, (f n).kind = n.kind)
    (before : List Kind) :
    judgeForms before (ns.map f) = (judgeForms before ns).map fun x => (f x.1, x.2) := by
  induction ns generalizing before with
  | nil => rfl
  | cons n ns ih =>
    have hrest := ih (fun m hm => hf m (List.mem_cons_of_mem _ hm)) (n.kind :: before)
    rw [List.map_cons, judgeForms, judgeForms, hf n List.mem_cons_self, hrest]
    split <;> rfl

namespace Twins

variable {u p v : List Char} (tw : Twins u p v)

theorem id_node : tw.gap.node.id = tw.bare.node.id := by
  rw [← tw.node_eq]
  exact congrArg Heading.id tw.heading_eq

theorem move_node : tw.bare.node.move tw.gap = tw.full.node := by
  have hlt : tw.gap.offset < tw.bare.node.span.stop :=
    Nat.lt_of_le_of_lt (Nat.le_of_eq tw.offset_eq) tw.bare.lt_stop_node
  rw [Node.move_of_id_eq hlt tw.id_node.symm, tw.node_eq]

theorem eq_node {n : Node} (hn : n ∈ (Tree.read (u ++ v)).nodes) (hid : n.id = tw.bare.node.id) :
    n = tw.bare.node :=
  Tree.eq_of_id_eq hn (Tree.mem_nodes_of_mem_locations tw.bare.node_mem) hid

/-- A node stays in place, is the one that changes, or moves with its children. -/
theorem move_cases {n : Node} (hn : n ∈ (Tree.read (u ++ v)).nodes) :
    n.span.stop ≤ byteLength u ∧ n.move tw.gap = n ∨ n = tw.bare.node ∨
      byteLength u < n.span.stop ∧ n.id ≠ tw.bare.node.id ∧
        n.move tw.gap = ⟨(n.heading.move tw.gap).id, n.kind,
          ⟨(n.heading.move tw.gap).start, n.span.stop + tw.gap.bytes⟩,
          n.children.map (·.move tw.gap)⟩ := by
  have hoffset := tw.offset_eq
  by_cases hstop : n.span.stop ≤ byteLength u
  · exact .inl ⟨hstop, Node.move_of_stop_le (by omega)⟩
  by_cases hid : n.id = tw.bare.node.id
  · exact .inr (.inl (tw.eq_node hn hid))
  · exact .inr (.inr ⟨by omega, hid, Node.move_of_id_ne (by omega) (tw.id_node ▸ hid)⟩)

theorem kind_move {n : Node} (hn : n ∈ (Tree.read (u ++ v)).nodes) :
    (n.move tw.gap).kind = n.kind := by
  rcases tw.move_cases hn with ⟨-, h⟩ | rfl | ⟨-, -, h⟩
  · rw [h]
  · rw [tw.move_node]
    exact congrArg Heading.kind tw.heading_eq
  · rw [h]

theorem stop_move {n : Node} (hn : n ∈ (Tree.read (u ++ v)).nodes) :
    (n.move tw.gap).span.stop ≤ byteLength u ↔ n.span.stop ≤ byteLength u := by
  rcases tw.move_cases hn with ⟨-, h⟩ | rfl | ⟨hstop, -, h⟩
  · rw [h]
  · have hbare := tw.bare.lt_stop_node
    have hfull := tw.full.lt_stop_node
    rw [tw.move_node]
    omega
  · rw [h]
    dsimp only
    omega

theorem children_move {n : Node} (hn : n ∈ (Tree.read (u ++ v)).nodes)
    (hid : n.id ≠ tw.bare.node.id) :
    (n.move tw.gap).children = n.children.map (·.move tw.gap) := by
  rcases tw.move_cases hn with ⟨hstop, h⟩ | rfl | ⟨-, -, h⟩
  · rw [h, List.map_congr_left (g := id), List.map_id]
    intro c hc
    have hspan := Tree.span_within tw.bare.ne_nil hn (Node.child_mem_preorder hc)
    exact Node.move_of_stop_le (tw.offset_eq ▸ Nat.le_trans hspan.2 hstop)
  · exact absurd rfl hid
  · rw [h]

theorem activeForms_move {n : Node} (hn : n ∈ (Tree.read (u ++ v)).nodes)
    (hid : n.id ≠ tw.bare.node.id) :
    (n.move tw.gap).activeForms = n.activeForms.map (·.move tw.gap) := by
  have hkinds : ∀ c ∈ n.children, (c.move tw.gap).kind = c.kind := fun c hc =>
    tw.kind_move (Tree.mem_nodes_of_mem_children hn hc)
  rw [Node.activeForms, Node.activeForms, Node.judgedForms, Node.judgedForms,
    tw.children_move hn hid, judgeForms_map hkinds, List.filter_map, List.map_map, List.map_map]
  rfl

/-! ### Nodes outside -/

/-- The node is not inside the one that changes. -/
def Outside (n : Node) : Prop :=
  ∃ above, ⟨n, above⟩ ∈ (Tree.read (u ++ v)).locations ∧ ∀ m ∈ above, m.id ≠ tw.bare.node.id

variable {tw}

theorem Outside.mem_nodes {n : Node} (h : tw.Outside n) : n ∈ (Tree.read (u ++ v)).nodes := by
  obtain ⟨above, hn, -⟩ := h
  exact Tree.mem_nodes_of_mem_locations hn

theorem Outside.child {n c : Node} (h : tw.Outside n) (hid : n.id ≠ tw.bare.node.id)
    (hc : c ∈ n.children) : tw.Outside c := by
  obtain ⟨above, hn, habove⟩ := h
  refine ⟨n :: above, Tree.children_subset_locations hn (List.mem_map.2 ⟨c, hc, rfl⟩),
    fun m hm => ?_⟩
  rcases List.mem_cons.1 hm with rfl | hm
  · exact hid
  · exact habove m hm

theorem Outside.move_mem {n : Node} (h : tw.Outside n) :
    n.move tw.gap ∈ (Tree.read (u ++ (p ++ v))).nodes := by
  obtain ⟨above, hn, habove⟩ := h
  refine Tree.mem_nodes_of_mem_locations (Tree.move_mem_locations tw.root_eq hn fun m hm => ?_)
  exact tw.children_move (Tree.mem_nodes_of_mem_above hn (List.mem_cons_of_mem _ hm)) (habove m hm)

variable (tw)

theorem outside_of_mem {n : Node} (hn : n ∈ tw.bare.node :: tw.bare.outer) : tw.Outside n := by
  obtain ⟨as, bs, happ⟩ := List.append_of_mem hn
  refine ⟨bs, ?_, fun m hm => tw.id_ne m ?_⟩
  · refine Tree.selfAndAncestors_subset_locations tw.bare.node_mem ?_
    have hchain := Location.mem_chain_append n as bs
    rwa [← happ] at hchain
  · cases as with
    | nil =>
      obtain ⟨-, rfl⟩ := List.cons.inj happ
      exact hm
    | cons a as =>
      obtain ⟨-, houter⟩ := List.cons.inj happ
      rw [houter]
      simp [hm]

variable {tw}

/-- A node outside ends before the place, starts after it, or is around it. -/
theorem Outside.span_cases {n : Node} (h : tw.Outside n) :
    n.span.stop ≤ byteLength u ∨ byteLength u < n.span.start ∨
      n ∈ tw.bare.node :: tw.bare.outer := by
  rcases tw.bare.span_cases h.mem_nodes with hstop | hstart | hmem
  · exact .inl hstop
  · exact .inr (.inl hstart)
  rw [tw.bare.above_eq, ← List.cons_append] at hmem
  rcases List.mem_append.1 hmem with hmem | hmem
  · -- what is inside the node has one location, which the node is above
    exfalso
    obtain ⟨above, hn, habove⟩ := h
    obtain ⟨as, bs, happ⟩ := List.append_of_mem hmem
    have hchain : ⟨n, bs ++ tw.bare.node :: tw.bare.outer⟩ ∈ (Tree.read (u ++ v)).locations := by
      refine Tree.selfAndAncestors_subset_locations tw.bare.mem ?_
      have hself : tw.bare.token.selfAndAncestors =
          Location.chain (tw.bare.token.node :: tw.bare.token.above) := rfl
      rw [hself, tw.bare.above_eq, ← List.cons_append, happ, List.append_assoc]
      exact Location.mem_chain_append n as _
    have heq : above = bs ++ tw.bare.node :: tw.bare.outer :=
      congrArg Location.above (Tree.location_eq_of_id_eq hn hchain rfl)
    exact habove tw.bare.node (by simp [heq]) rfl
  · exact .inr (.inr hmem)

/-! ### Texts and heads -/

theorem text_of_stop_le {n : Node} (hstop : n.span.stop ≤ byteLength u) :
    (Tree.read (u ++ (p ++ v))).text n = (Tree.read (u ++ v)).text n := by
  rw [Tree.text, Tree.text, Tree.chars, Tree.chars, Tree.source_read, Tree.source_read,
    slice_append_left _ hstop, slice_append_left _ hstop]

/-- The nodes around the place are no words. -/
theorem isWord_of_mem {n : Node} (hn : n ∈ tw.bare.node :: tw.bare.outer) :
    n.kind.isWord = false := by
  have habove : n ∈ tw.bare.token.above := by
    rw [tw.bare.above_eq]
    exact List.mem_append_right _ hn
  obtain ⟨path, outer, happ⟩ := List.append_of_mem habove
  obtain ⟨c, hc, -⟩ := Tree.exists_child_on_path tw.bare.ne_nil tw.bare.mem happ
  rw [Bool.eq_false_iff]
  intro hword
  rw [Tree.children_eq_of_isWord (tw.outside_of_mem hn).mem_nodes hword] at hc
  exact absurd hc List.not_mem_nil

/-- What starts after the place moves on by the word. -/
theorem Outside.span_move {n : Node} (h : tw.Outside n) (hstart : byteLength u < n.span.start) :
    (n.move tw.gap).span = ⟨n.span.start + byteLength p, n.span.stop + byteLength p⟩ := by
  have hlt := Tree.lt_stop_read tw.bare.ne_nil n h.mem_nodes
  have hoffset := tw.offset_eq
  rcases tw.move_cases h.mem_nodes with ⟨hstop, -⟩ | rfl | ⟨-, -, hmove⟩
  · omega
  · obtain ⟨c, post, hchildren, -, -, hc, -⟩ := tw.bare.exists_child
    have hspan := Tree.span_within tw.bare.ne_nil h.mem_nodes
      (Node.child_mem_preorder (by simp [hchildren] : c ∈ tw.bare.node.children))
    omega
  · have hnot : ¬ n.heading.start ≤ tw.gap.offset := by
      rw [hoffset]
      exact Nat.not_le.2 hstart
    rw [hmove, Heading.move, tw.bytes_eq, if_neg hnot]
    rfl

/-- Words outside keep their texts. -/
theorem Outside.text_move {n : Node} (h : tw.Outside n) (hword : n.kind.isWord = true) :
    (Tree.read (u ++ (p ++ v))).text (n.move tw.gap) = (Tree.read (u ++ v)).text n := by
  rcases h.span_cases with hstop | hstart | hmem
  · rw [Node.move_of_stop_le (tw.offset_eq ▸ hstop), text_of_stop_le hstop]
  · have hlt := Tree.lt_stop_read tw.bare.ne_nil n h.mem_nodes
    obtain ⟨start, hstart'⟩ := Nat.exists_eq_add_of_le' (Nat.le_of_lt hstart)
    obtain ⟨stop, hstop'⟩ := Nat.exists_eq_add_of_le' (Nat.le_of_lt (Nat.lt_trans hstart hlt))
    rw [Tree.text, Tree.text, Tree.chars, Tree.chars, Tree.source_read, Tree.source_read,
      h.span_move hstart, hstart', hstop']
    dsimp only
    rw [Nat.add_right_comm start, Nat.add_right_comm stop, slice_append_right, slice_append_right,
      slice_append_right]
  · rw [isWord_of_mem hmem] at hword
    cases hword

theorem Outside.head?_move {n : Node} (h : tw.Outside n) (hid : n.id ≠ tw.bare.node.id) :
    (Tree.read (u ++ (p ++ v))).head? (n.move tw.gap) = (Tree.read (u ++ v)).head? n := by
  rw [Tree.head?, Tree.head?, tw.activeForms_move h.mem_nodes hid, List.head?_map]
  cases hfirst : n.activeForms.head? with
  | none => rfl
  | some f =>
    have hf : tw.Outside f :=
      h.child hid (n.activeForms_subset_children (List.mem_of_mem_head? hfirst))
    simp only [Option.map_some]
    rw [tw.kind_move hf.mem_nodes]
    split
    · next hkind => rw [hf.text_move (by rw [hkind]; rfl)]
    · rfl

/-! ### Lists around the place -/

variable (tw)

/-- The locations of the nodes around the place, from the one that changes outwards. -/
def levels : List Location := Location.chain (tw.bare.node :: tw.bare.outer)

theorem start_le_of_mem {n : Node} (hn : n ∈ tw.bare.node :: tw.bare.outer) :
    n.span.start ≤ byteLength u := by
  have habove : n ∈ tw.bare.token.above := by
    rw [tw.bare.above_eq]
    exact List.mem_append_right _ hn
  obtain ⟨path, outer, happ⟩ := List.append_of_mem habove
  obtain ⟨c, hc, -, -, -, hstart, -⟩ :=
    Tree.exists_child_on_path tw.bare.ne_nil tw.bare.mem happ
  have hspan := Tree.span_within tw.bare.ne_nil (tw.outside_of_mem hn).mem_nodes
    (Node.child_mem_preorder hc)
  exact Nat.le_trans hspan.1 (Nat.le_trans hstart tw.bare.start_le)

theorem id_move {n : Node} (hn : n ∈ tw.bare.node :: tw.bare.outer) :
    (n.move tw.gap).id = n.id := by
  rcases tw.move_cases (tw.outside_of_mem hn).mem_nodes with ⟨-, h⟩ | rfl | ⟨-, -, h⟩
  · rw [h]
  · rw [tw.move_node]
    exact congrArg Heading.id tw.heading_eq
  · have hle : n.heading.start ≤ tw.gap.offset := by
      rw [tw.offset_eq]
      exact tw.start_le_of_mem hn
    rw [h, Heading.move, if_pos hle]
    rfl

theorem mem_of_mem_levels {l : Location} (hl : l ∈ tw.levels) :
    l ∈ (Tree.read (u ++ v)).locations ∧ l.node ∈ tw.bare.node :: tw.bare.outer ∧
      l.above ⊆ tw.bare.outer := by
  refine ⟨Tree.selfAndAncestors_subset_locations tw.bare.node_mem hl, ?_⟩
  obtain ⟨as, happ⟩ := Location.exists_of_mem_chain hl
  rw [happ]
  refine ⟨by simp, ?_⟩
  cases as with
  | nil =>
    obtain ⟨-, houter⟩ := List.cons.inj happ
    rw [houter]
    exact List.Subset.refl _
  | cons a as =>
    obtain ⟨-, houter⟩ := List.cons.inj happ
    rw [houter]
    exact List.subset_append_of_subset_right _ (List.subset_cons_self _ _)

theorem move_mem_locations {l : Location} (hl : l ∈ tw.levels) :
    l.move tw.gap ∈ (Tree.read (u ++ (p ++ v))).locations := by
  obtain ⟨hmem, -, habove⟩ := tw.mem_of_mem_levels hl
  exact Tree.move_mem_locations tw.root_eq hmem fun m hm => tw.children_move
    (Tree.mem_nodes_of_mem_above hmem (List.mem_cons_of_mem _ hm)) (tw.id_ne m (habove hm))

/-- The siblings before a node around the place are the same in both trees. -/
theorem before_move {l : Location} (hl : l ∈ tw.levels) : (l.move tw.gap).before = l.before := by
  obtain ⟨hmem, hnode, habove⟩ := tw.mem_of_mem_levels hl
  obtain ⟨n, above⟩ := l
  cases above with
  | nil => rfl
  | cons q above =>
    obtain ⟨hq, hn⟩ := Tree.parent_mem_locations hmem rfl
    have hqnode := Tree.mem_nodes_of_mem_locations hq
    obtain ⟨pre, post, happ⟩ := List.append_of_mem hn
    obtain ⟨hbefore, hpre, -⟩ := Tree.siblings_of_children_eq tw.bare.ne_nil hmem rfl happ
    -- the siblings before end before the place, so that they stay
    have hstay : pre.map (·.move tw.gap) = pre := by
      rw [List.map_congr_left (g := id), List.map_id]
      intro m hm
      refine Node.move_of_stop_le (Nat.le_trans (hpre m hm) ?_)
      rw [tw.offset_eq]
      exact tw.start_le_of_mem hnode
    have hchildren : (q.move tw.gap).children =
        pre ++ n.move tw.gap :: post.map (·.move tw.gap) := by
      rw [tw.children_move hqnode (tw.id_ne q (habove List.mem_cons_self)), happ, List.map_append,
        List.map_cons, hstay]
    rw [hbefore]
    exact (Tree.siblings_of_children_eq tw.full.ne_nil (tw.move_mem_locations hl) rfl hchildren).1

/-- Markers deactivate a node around the place in both trees or in neither. -/
theorem isDeactivated_move {l : Location} (hl : l ∈ tw.levels) :
    (l.move tw.gap).isDeactivated = l.isDeactivated := by
  have hkind : (l.move tw.gap).node.kind = l.node.kind :=
    tw.kind_move (Tree.mem_nodes_of_mem_locations (tw.mem_of_mem_levels hl).1)
  rw [Location.isDeactivated, Location.isDeactivated, tw.before_move hl, hkind]

theorem selfAndAncestors_subset_levels {l : Location} (hl : l ∈ tw.levels) :
    l.selfAndAncestors ⊆ tw.levels := by
  obtain ⟨as, happ⟩ := Location.exists_of_mem_chain hl
  have hlevels : tw.levels = Location.chain (as ++ l.node :: l.above) := congrArg _ happ
  rw [hlevels]
  clear hlevels happ hl
  induction as with
  | nil => exact List.Subset.refl _
  | cons a as ih => exact List.subset_cons_of_subset _ ih

/-- A list around the place may bind names in both trees or in neither. -/
theorem isLive_move {l : Location} (hl : l ∈ tw.levels) :
    (Tree.read (u ++ (p ++ v))).isLive (l.move tw.gap) = (Tree.read (u ++ v)).isLive l := by
  have hmem := (tw.mem_of_mem_levels hl).1
  have hkind : (l.move tw.gap).node.kind = l.node.kind :=
    tw.kind_move (Tree.mem_nodes_of_mem_locations hmem)
  have hactive : (l.move tw.gap).IsActive ↔ l.IsActive := by
    have hself : (l.move tw.gap).selfAndAncestors = l.selfAndAncestors.map (·.move tw.gap) :=
      Location.chain_map_move tw.gap (l.node :: l.above)
    rw [Location.IsActive, Location.IsActive, hself, List.forall_mem_map]
    refine forall₂_congr fun a ha => ?_
    have halevel := tw.selfAndAncestors_subset_levels hl ha
    have hakind : (a.move tw.gap).node.kind = a.node.kind :=
      tw.kind_move (Tree.mem_nodes_of_mem_locations (tw.mem_of_mem_levels halevel).1)
    rw [hakind, tw.isDeactivated_move halevel]
  rw [Bool.eq_iff_iff, Tree.isLive_iff (tw.move_mem_locations hl), Tree.isLive_iff hmem, hkind,
    hactive]

theorem isInFunction_move {l : Location} (hl : l ∈ tw.levels) :
    (Tree.read (u ++ (p ++ v))).isInFunction (l.move tw.gap) =
      (Tree.read (u ++ v)).isInFunction l := by
  obtain ⟨-, -, habove⟩ := tw.mem_of_mem_levels hl
  obtain ⟨n, above⟩ := l
  cases above with
  | nil => rfl
  | cons q above =>
    have hq := habove List.mem_cons_self
    have hhead := (tw.outside_of_mem (List.mem_cons_of_mem _ hq)).head?_move (tw.id_ne q hq)
    exact congrArg (fun h : Option Head => h.any (·.parameterSlot?.isSome)) hhead

/-- A list around the node that changes has one rule in both trees. -/
theorem rule?_move {l : Location} (hl : l ∈ tw.levels) (hid : l.node.id ≠ tw.bare.node.id) :
    (Tree.read (u ++ (p ++ v))).rule? (l.move tw.gap) = (Tree.read (u ++ v)).rule? l := by
  obtain ⟨hmem, hnode, -⟩ := tw.mem_of_mem_levels hl
  have houtside := tw.outside_of_mem hnode
  have hforms : (l.move tw.gap).node.activeForms = l.node.activeForms.map (·.move tw.gap) :=
    tw.activeForms_move houtside.mem_nodes hid
  have hhead : (Tree.read (u ++ (p ++ v))).head? (l.move tw.gap).node =
      (Tree.read (u ++ v)).head? l.node := houtside.head?_move hid
  rw [Tree.rule?, Tree.rule?, hforms, List.head?_map, tw.isInFunction_move hl, hhead]
  cases hfirst : l.node.activeForms.head? with
  | none => rfl
  | some f =>
    have hf := Tree.mem_nodes_of_mem_children houtside.mem_nodes
      (l.node.activeForms_subset_children (List.mem_of_mem_head? hfirst))
    simp only [Option.map_some, tw.kind_move hf]

/-! ### Clauses outside -/

/-- What ends before the place binds the same names in both trees. -/
theorem map_text_boundNames (hcs : u ++ v ≠ []) {n : Node} (hn : n ∈ (Tree.read (u ++ v)).nodes)
    (hstop : n.span.stop ≤ byteLength u) :
    (((Tree.read (u ++ (p ++ v))).boundNames n).filter (·.span.stop ≤ byteLength u)).map
        (Tree.read (u ++ (p ++ v))).text =
      (((Tree.read (u ++ v)).boundNames n).filter (·.span.stop ≤ byteLength u)).map
        (Tree.read (u ++ v)).text := by
  have htext : ∀ m ∈ n.preorder,
      (Tree.read (u ++ (p ++ v))).text m = (Tree.read (u ++ v)).text m := fun m hm =>
    text_of_stop_le (Nat.le_trans (Tree.span_within hcs hn hm).2 hstop)
  rw [Tree.boundNames_congr n htext]
  refine List.map_congr_left fun m hm => htext m ?_
  exact (Tree.mem_boundNames_iff.1 (List.mem_filter.1 hm).1).mem_preorder

/-- Clauses of patterns that end before the place show the same names in both trees. -/
theorem seen_of_stop_le {cs : List Clause}
    (h : ∀ c ∈ cs, c.pattern ∈ (Tree.read (u ++ v)).nodes ∧
      c.pattern ∈ (Tree.read (u ++ (p ++ v))).nodes ∧ c.pattern.span.stop ≤ byteLength u) :
    (Tree.read (u ++ (p ++ v))).seen tw.full.token (byteLength u) cs =
      (Tree.read (u ++ v)).seen tw.bare.token (byteLength u) cs := by
  rw [Tree.seen, Tree.seen, List.flatMap_def, List.flatMap_def]
  refine congrArg List.flatten (List.map_congr_left fun c hc => ?_)
  obtain ⟨hbare, hfull, hstop⟩ := h c hc
  rw [tw.full.isWithin_eq_false hfull hstop, tw.bare.isWithin_eq_false hbare hstop,
    map_text_boundNames tw.bare.ne_nil hbare hstop]

/-- The names of a clause whose pattern is outside are seen in both trees or in
    neither. -/
theorem seen_move {q : Node} (hq : tw.Outside q) {before after : Nat}
    (hfrom : after ≤ byteLength u ↔ before ≤ byteLength u) :
    (Tree.read (u ++ (p ++ v))).seen tw.full.token (byteLength u) [⟨q.move tw.gap, after⟩] =
      (Tree.read (u ++ v)).seen tw.bare.token (byteLength u) [⟨q, before⟩] := by
  have hvisible : decide (byteLength u < after) = decide (byteLength u < before) := by
    rw [decide_eq_decide, ← Nat.not_le, ← Nat.not_le, hfrom]
  rw [Tree.seen, Tree.seen, List.flatMap_singleton, List.flatMap_singleton]
  dsimp only
  rcases hq.span_cases with hstop | hstart | hmem
  · have hmove : q.move tw.gap = q := Node.move_of_stop_le (tw.offset_eq ▸ hstop)
    have hfull := tw.full.isWithin_eq_false (hmove ▸ hq.move_mem) hstop
    rw [hmove, hvisible, hfull, tw.bare.isWithin_eq_false hq.mem_nodes hstop,
      map_text_boundNames tw.bare.ne_nil hq.mem_nodes hstop]
  · have hmoved : byteLength u < (q.move tw.gap).span.start := by
      rw [hq.span_move hstart]
      exact Nat.lt_add_right _ hstart
    rw [Tree.filter_boundNames_eq_nil tw.full.ne_nil hq.move_mem hmoved,
      Tree.filter_boundNames_eq_nil tw.bare.ne_nil hq.mem_nodes hstart]
    simp
  · -- the pattern holds the place
    have hbare : tw.bare.token.isWithin q = true :=
      (Tree.isWithin_iff_mem tw.bare.mem hq.mem_nodes).2 (by simp [tw.bare.above_eq, hmem])
    have hfull : tw.full.token.isWithin (q.move tw.gap) = true := by
      refine (Tree.isWithin_iff_mem tw.full.mem hq.move_mem).2 (List.mem_cons_of_mem _ ?_)
      have habove : tw.full.node :: tw.full.outer =
          (tw.bare.node :: tw.bare.outer).map (·.move tw.gap) := by
        rw [List.map_cons, tw.move_node, tw.outer_eq]
      rw [tw.full.above_eq, habove]
      exact List.mem_append_right _ (List.mem_map_of_mem hmem)
    rw [hbare, hfull, Bool.or_true, Bool.or_true, if_pos rfl, if_pos rfl]

end Twins

end Typeahead
