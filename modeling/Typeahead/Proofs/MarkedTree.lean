import Typeahead.Proofs.MarkerInText

/-!
# The tree with a marker more

A marker is put into a text right before a node with parts. Of all nodes only the one
around both gets another child. All others are asked the same questions with the same
answers: their kinds, active forms, heads and texts. The node around still has the same
forms before the marker.

* `Commented.mark_mem_locations`: a location of the tree leads to one in the marked tree;
* `Commented.activeForms_mark`, `Commented.chars_mark_of_isWord`: what is asked of a node;
* `Commented.activeBefore_mark`: the active forms before a location.
-/

namespace Typeahead

theorem Tree.start_le_of_mem_above {cs : List Char} (hcs : cs ≠ []) {l : Location} {n : Node}
    (hl : l ∈ (Tree.read cs).locations) (hn : n ∈ l.above) :
    n.span.start ≤ l.node.span.start :=
  (span_within hcs (mem_nodes_of_mem_above hl (List.mem_cons_of_mem _ hn))
    (mem_preorder_of_mem_above hl hn)).1

/-- What a location becomes. -/
def Location.mark (m : Mark) (l : Location) : Location := ⟨l.node.mark m, l.above.map (·.mark m)⟩

/-- A node with parts of the text `u ++ w`, right before which a marker is put in. -/
structure Commented (u w : List Char) where
  before : List Lexeme
  opener : Lexeme
  after : List Lexeme
  cut : CutsBefore u w before opener after
  list : Location
  parent : Node
  outer : List Node
  mem : list ∈ (Tree.read (u ++ w)).locations
  above_eq : list.above = parent :: outer
  start_eq : list.node.span.start = byteLength u
  id_eq : list.node.id = (CutsBefore.mark u w before).id
  host_eq : parent.id = (CutsBefore.mark u w before).host

/-- A marker can be put in before a node with parts, unless a word ends there. -/
theorem Tree.exists_commented {cs : List Char} {l : Location} (hl : l ∈ (Tree.read cs).locations)
    (hnested : l.node.kind.isNested = true)
    (hword : ∀ n ∈ (Tree.read cs).nodes, n.kind.isWord = true →
      n.span.stop ≠ l.node.span.start) :
    ∃ u w, cs = u ++ w ∧ ∃ cm : Commented u w, cm.list = l := by
  obtain ⟨u, w, before, k, after, rfl, hstart, hcut, hid, p, outer, habove, hp⟩ :=
    exists_cutsBefore hl hnested hword
  exact ⟨u, w, rfl, ⟨before, k, after, hcut, l, p, outer, hl, habove, hstart, hid, hp⟩, rfl⟩

namespace Commented

variable {u w : List Char} (cm : Commented u w)

/-- The marker. -/
def mark : Mark := CutsBefore.mark u w cm.before

theorem offset_mark : cm.mark.offset = byteLength u := rfl

theorem root_eq :
    (Tree.read (u ++ '#' :: '_' :: w)).root = (Tree.read (u ++ w)).root.mark cm.mark :=
  cm.cut.root_read_mark

theorem ne_nil (cm : Commented u w) : u ++ w ≠ [] := cm.cut.ne_nil

theorem marked_ne_nil : u ++ '#' :: '_' :: w ≠ [] := by simp

theorem sides {n : Node} (hn : n ∈ (Tree.read (u ++ w)).nodes) : cm.mark.Sides n :=
  cm.cut.sides n hn

theorem parent_mem : ⟨cm.parent, cm.outer⟩ ∈ (Tree.read (u ++ w)).locations :=
  (Tree.parent_mem_locations cm.mem cm.above_eq).1

theorem parent_mem_nodes : cm.parent ∈ (Tree.read (u ++ w)).nodes :=
  Tree.mem_nodes_of_mem_locations cm.parent_mem

/-! ### Numbers, spans and texts -/

variable {n : Node}

theorem id_mark (hn : n ∈ (Tree.read (u ++ w)).nodes) :
    (n.mark cm.mark).id = if n.id < cm.mark.id then n.id else n.id + 1 := by
  have hheading : (n.heading.mark cm.mark).id =
      if n.id < cm.mark.id then n.id else n.id + 1 := by
    rw [Heading.mark]
    exact apply_ite Heading.id _ _ _
  cases cm.sides hn with
  | before hid hstop => rw [Node.mark_of_stop_le hstop, if_pos hid]
  | around _ _ hstop _ => rw [Node.mark_of_lt_stop hstop, hheading]
  | after _ _ hstop => rw [Node.mark_of_lt_stop hstop, hheading]

theorem id_mark_inj {k : Node} (hn : n ∈ (Tree.read (u ++ w)).nodes)
    (hk : k ∈ (Tree.read (u ++ w)).nodes) :
    (n.mark cm.mark).id = (k.mark cm.mark).id ↔ n.id = k.id := by
  rw [cm.id_mark hn, cm.id_mark hk]
  split <;> split <;> omega

theorem id_beq_mark {k : Node} (hn : n ∈ (Tree.read (u ++ w)).nodes)
    (hk : k ∈ (Tree.read (u ++ w)).nodes) :
    ((n.mark cm.mark).id == (k.mark cm.mark).id) = (n.id == k.id) := by
  rw [Bool.eq_iff_iff, beq_iff_eq, beq_iff_eq, cm.id_mark_inj hn hk]

theorem any_id_mark {x : Option Node} {k : Node} (hx : ∀ n ∈ x, n ∈ (Tree.read (u ++ w)).nodes)
    (hk : k ∈ (Tree.read (u ++ w)).nodes) :
    (x.map (·.mark cm.mark)).any (·.id == (k.mark cm.mark).id) = x.any (·.id == k.id) := by
  cases x with
  | none => rfl
  | some n => exact cm.id_beq_mark (hx n rfl) hk

/-- What comes after the marker is shifted. -/
theorem span_mark_of_id_le (hn : n ∈ (Tree.read (u ++ w)).nodes) (hid : cm.mark.id ≤ n.id) :
    (n.mark cm.mark).span = ⟨n.span.start + 2, n.span.stop + 2⟩ := by
  cases cm.sides hn with
  | before hlt _ => exact absurd hlt (Nat.not_lt.2 hid)
  | around hlt _ _ _ => exact absurd hlt (Nat.not_lt.2 hid)
  | after _ _ hstop =>
    have hheading : n.heading.mark cm.mark = ⟨n.id + 1, n.kind, n.span.start + 2⟩ :=
      if_neg (Nat.not_lt.2 hid)
    rw [Node.mark_of_lt_stop hstop, hheading]

theorem chars_of_stop_le (hstop : n.span.stop ≤ byteLength u) :
    (Tree.read (u ++ '#' :: '_' :: w)).chars n = (Tree.read (u ++ w)).chars n := by
  rw [Tree.chars, Tree.chars, Tree.source_read, Tree.source_read, slice_append_left _ hstop,
    slice_append_left _ hstop]

theorem append_marker : u ++ '#' :: '_' :: w = u ++ ['#', '_'] ++ w := by simp

theorem byteLength_append_marker : byteLength (u ++ ['#', '_']) = byteLength u + 2 := by
  rw [byteLength_append, byteLength_marker]
  rfl

/-- A text after the marker is the same, two bytes later. -/
theorem slice_marked {start stop : Nat} (hstart : byteLength u ≤ start) (hle : start ≤ stop) :
    slice (u ++ '#' :: '_' :: w) (start + 2) (stop + 2) = slice (u ++ w) start stop := by
  obtain ⟨i, rfl⟩ := Nat.exists_eq_add_of_le' hstart
  obtain ⟨j, rfl⟩ := Nat.exists_eq_add_of_le' (Nat.le_trans hstart hle)
  rw [append_marker, slice_append_right, Nat.add_assoc, Nat.add_assoc,
    ← byteLength_append_marker, slice_append_right]

theorem chars_mark_of_id_le (hn : n ∈ (Tree.read (u ++ w)).nodes) (hid : cm.mark.id ≤ n.id) :
    (Tree.read (u ++ '#' :: '_' :: w)).chars (n.mark cm.mark) = (Tree.read (u ++ w)).chars n := by
  have hlt := Tree.lt_stop_read cm.ne_nil n hn
  cases cm.sides hn with
  | before hlt _ => exact absurd hlt (Nat.not_lt.2 hid)
  | around hlt _ _ _ => exact absurd hlt (Nat.not_lt.2 hid)
  | after _ hstart _ =>
    rw [Tree.chars, Tree.chars, Tree.source_read, Tree.source_read, cm.span_mark_of_id_le hn hid]
    exact slice_marked hstart (Nat.le_of_lt hlt)

/-- Words keep their texts. -/
theorem chars_mark_of_isWord (hn : n ∈ (Tree.read (u ++ w)).nodes) (hword : n.kind.isWord = true) :
    (Tree.read (u ++ '#' :: '_' :: w)).chars (n.mark cm.mark) = (Tree.read (u ++ w)).chars n := by
  cases cm.sides hn with
  | before _ hstop =>
    rw [Node.mark_of_stop_le hstop]
    exact chars_of_stop_le hstop
  | around _ _ _ hkind =>
    rw [Kind.isWord_eq_false hkind] at hword
    cases hword
  | after hid _ _ => exact cm.chars_mark_of_id_le hn hid

/-! ### Children -/

theorem children_mark (hn : n ∈ (Tree.read (u ++ w)).nodes) (hid : n.id ≠ cm.parent.id) :
    (n.mark cm.mark).children = n.children.map (·.mark cm.mark) := by
  by_cases hstop : n.span.stop ≤ cm.mark.offset
  · rw [Node.mark_of_stop_le hstop, List.map_congr_left (g := id), List.map_id]
    intro c hc
    have hspan := Tree.span_within cm.ne_nil hn (Node.child_mem_preorder hc)
    exact Node.mark_of_stop_le (Nat.le_trans hspan.2 hstop)
  · have hhost : n.id ≠ cm.mark.host := fun h => hid (h.trans cm.host_eq.symm)
    rw [Node.mark_of_lt_stop (Nat.lt_of_not_le hstop), Mark.into_of_ne hhost]

/-- The node around the marker gets it as a child right before the list. -/
theorem exists_children_parent : ∃ pre post, cm.parent.children = pre ++ cm.list.node :: post ∧
    pre.map (·.mark cm.mark) = pre ∧ (cm.parent.mark cm.mark).children =
      pre ++ cm.mark.node :: cm.list.node.mark cm.mark :: post.map (·.mark cm.mark) := by
  have hparent := cm.parent_mem_nodes
  have hchild := (Tree.parent_mem_locations cm.mem cm.above_eq).2
  have hlt : ∀ c ∈ cm.parent.children, c.span.start < c.span.stop := fun c hc =>
    Tree.lt_stop_read cm.ne_nil c (Tree.mem_nodes_of_mem_children hparent hc)
  obtain ⟨pre, post, happ⟩ := List.append_of_mem hchild
  obtain ⟨-, hpre, hpost⟩ := Tree.siblings_of_children_eq cm.ne_nil cm.mem cm.above_eq happ
  have hstart := cm.start_eq
  have hoffset := cm.offset_mark
  have hlist := hlt _ hchild
  have hstop : ∀ c ∈ pre, c.span.stop ≤ cm.mark.offset := fun c hc => by
    have := hpre c hc
    omega
  have hstay : pre.map (·.mark cm.mark) = pre := by
    rw [List.map_congr_left (g := id), List.map_id]
    exact fun c hc => Node.mark_of_stop_le (hstop c hc)
  have hrest : ∀ c ∈ (cm.list.node :: post).map (·.mark cm.mark), cm.mark.offset < c.span.stop := by
    intro c hc
    obtain ⟨d, hd, rfl⟩ := List.mem_map.1 hc
    refine Nat.lt_of_not_le fun hle => ?_
    have hle := Node.stop_mark_le_iff.1 hle
    rcases List.mem_cons.1 hd with rfl | hd
    · omega
    · have := hpost d hd
      have := hlt d (by simp [happ, hd])
      omega
  have hspan := Tree.span_within cm.ne_nil hparent (Node.child_mem_preorder hchild)
  refine ⟨pre, post, happ, hstay, ?_⟩
  have hhost : cm.parent.id = cm.mark.host := cm.host_eq
  rw [Node.mark_of_lt_stop (by omega), Mark.into, if_pos hhost]
  dsimp only
  rw [happ, List.map_append, hstay, Mark.splice_append hstop hrest, List.map_cons]

theorem mem_children_mark {c : Node} (hn : n ∈ (Tree.read (u ++ w)).nodes)
    (hc : c ∈ n.children) : c.mark cm.mark ∈ (n.mark cm.mark).children := by
  by_cases hid : n.id = cm.parent.id
  · obtain rfl := Tree.eq_of_id_eq hn cm.parent_mem_nodes hid
    obtain ⟨pre, post, happ, hstay, hmarked⟩ := cm.exists_children_parent
    rw [happ] at hc
    rw [hmarked, ← hstay]
    rcases List.mem_append.1 hc with hc | hc
    · exact List.mem_append_left _ (List.mem_map_of_mem hc)
    · have hmem : c.mark cm.mark ∈ (cm.list.node :: post).map (·.mark cm.mark) :=
        List.mem_map_of_mem hc
      exact List.mem_append_right _ (List.mem_cons_of_mem _ hmem)
  · rw [cm.children_mark hn hid]
    exact List.mem_map_of_mem hc

/-- A location leads to one in the marked tree. -/
theorem mark_mem_locations {l : Location} (hl : l ∈ (Tree.read (u ++ w)).locations) :
    l.mark cm.mark ∈ (Tree.read (u ++ '#' :: '_' :: w)).locations := by
  obtain ⟨n, above⟩ := l
  induction above generalizing n with
  | nil =>
    rw [Tree.eq_root_of_mem_locations hl, Location.mark, ← cm.root_eq, Tree.locations_eq]
    exact List.mem_cons_self
  | cons v above ih =>
    obtain ⟨hv, hn⟩ := Tree.parent_mem_locations hl rfl
    have hchild := cm.mem_children_mark (Tree.mem_nodes_of_mem_locations hv) hn
    exact Tree.children_subset_locations (ih v hv) (List.mem_map.2 ⟨_, hchild, rfl⟩)

/-! ### Active forms -/

theorem activeAmong_map_mark (m : Mark) (before : List Kind) (ns : List Node) :
    activeAmong before (ns.map (·.mark m)) = (activeAmong before ns).map (·.mark m) := by
  rw [activeAmong, judgeForms_map fun n _ => n.kind_mark m, List.filter_map, List.map_map,
    activeAmong, List.map_map]
  rfl

theorem activeForms_mark (hn : n ∈ (Tree.read (u ++ w)).nodes) (hid : n.id ≠ cm.parent.id) :
    (n.mark cm.mark).activeForms = n.activeForms.map (·.mark cm.mark) := by
  rw [Node.activeForms_eq_activeAmong, cm.children_mark hn hid, activeAmong_map_mark,
    Node.activeForms_eq_activeAmong]

theorem parameterVector?_mark (hn : n ∈ (Tree.read (u ++ w)).nodes) (hid : n.id ≠ cm.parent.id) :
    (n.mark cm.mark).parameterVector? = n.parameterVector?.map (·.mark cm.mark) := by
  rw [Node.parameterVector?, cm.activeForms_mark hn hid, ← List.map_drop, List.takeWhile_map,
    List.find?_map, Node.parameterVector?]
  simp only [Function.comp_def, Node.kind_mark]

theorem bindingVector?_mark (hn : n ∈ (Tree.read (u ++ w)).nodes) (hid : n.id ≠ cm.parent.id) :
    (n.mark cm.mark).bindingVector? = n.bindingVector?.map (·.mark cm.mark) := by
  rw [Node.bindingVector?, cm.activeForms_mark hn hid, List.getElem?_map, Option.filter_map,
    Node.bindingVector?]
  simp only [Function.comp_def, Node.kind_mark]

theorem isClosed_mark (hn : n ∈ (Tree.read (u ++ w)).nodes) (hid : n.id ≠ cm.parent.id) :
    (n.mark cm.mark).isClosed = n.isClosed := by
  rw [Node.isClosed, cm.children_mark hn hid, List.getLast?_map, Option.any_map, Node.isClosed]
  simp only [Node.kind_mark]

theorem activeBefore_mark {l : Location} (hl : l ∈ (Tree.read (u ++ w)).locations) {v : Node}
    {above : List Node} (habove : l.above = v :: above) (hid : v.id ≠ cm.parent.id) :
    (l.mark cm.mark).activeBefore = l.activeBefore.map (·.mark cm.mark) := by
  obtain ⟨hv, hn⟩ := Tree.parent_mem_locations hl habove
  obtain ⟨pre, post, happ⟩ := List.append_of_mem hn
  have hmarked : (v.mark cm.mark).children =
      pre.map (·.mark cm.mark) ++ l.node.mark cm.mark :: post.map (·.mark cm.mark) := by
    rw [cm.children_mark (Tree.mem_nodes_of_mem_locations hv) hid, happ, List.map_append,
      List.map_cons]
  have habove' : (l.mark cm.mark).above = v.mark cm.mark :: above.map (·.mark cm.mark) := by
    rw [Location.mark, habove, List.map_cons]
  have hbefore := (Tree.siblings_of_children_eq cm.ne_nil hl habove happ).1
  have hbefore' := (Tree.siblings_of_children_eq marked_ne_nil (cm.mark_mem_locations hl) habove'
    hmarked).1
  rw [Location.activeBefore, hbefore', List.reverse_reverse, activeAmong_map_mark,
    Location.activeBefore, hbefore, List.reverse_reverse]

/-- The marker is no form, so that the list has the same active forms before it. -/
theorem activeBefore_mark_list : (cm.list.mark cm.mark).activeBefore = cm.list.activeBefore := by
  obtain ⟨pre, post, happ, hstay, hmarked⟩ := cm.exists_children_parent
  have habove : (cm.list.mark cm.mark).above =
      cm.parent.mark cm.mark :: cm.outer.map (·.mark cm.mark) := by
    rw [Location.mark, cm.above_eq, List.map_cons]
  have hmarked : (cm.parent.mark cm.mark).children = (pre ++ [cm.mark.node]) ++
      (cm.list.mark cm.mark).node :: post.map (·.mark cm.mark) := by
    rw [hmarked, List.append_assoc]
    rfl
  have hbefore := (Tree.siblings_of_children_eq cm.ne_nil cm.mem cm.above_eq happ).1
  have hbefore' := (Tree.siblings_of_children_eq marked_ne_nil (cm.mark_mem_locations cm.mem)
    habove hmarked).1
  rw [Location.activeBefore, hbefore', List.reverse_reverse, activeAmong_append,
    Location.activeBefore, hbefore, List.reverse_reverse]
  exact List.append_nil _

/-- The active forms of the node around begin with those before the list. -/
theorem exists_activeForms_parent : ∃ later later',
    cm.parent.activeForms = cm.list.activeBefore ++ later ∧
      (cm.parent.mark cm.mark).activeForms = cm.list.activeBefore ++ later' ∧
      cm.list.activeBefore.map (·.mark cm.mark) = cm.list.activeBefore := by
  have habove : (cm.list.mark cm.mark).above =
      cm.parent.mark cm.mark :: cm.outer.map (·.mark cm.mark) := by
    rw [Location.mark, cm.above_eq, List.map_cons]
  obtain ⟨later, hlater, hstop, -⟩ := Tree.exists_activeForms_eq cm.ne_nil cm.mem cm.above_eq
  obtain ⟨later', hlater', -⟩ := Tree.exists_activeForms_eq marked_ne_nil
    (cm.mark_mem_locations cm.mem) habove
  rw [cm.activeBefore_mark_list] at hlater'
  refine ⟨_, _, hlater, hlater', ?_⟩
  rw [List.map_congr_left (g := id), List.map_id]
  intro c hc
  exact Node.mark_of_stop_le (cm.offset_mark.symm ▸ cm.start_eq ▸ hstop c hc)

/-! ### Heads -/

/-- A node with the same first active form has the same head. -/
theorem head?_mark (hn : n ∈ (Tree.read (u ++ w)).nodes)
    (hhead : (n.mark cm.mark).activeForms.head? = n.activeForms.head?.map (·.mark cm.mark)) :
    (Tree.read (u ++ '#' :: '_' :: w)).head? (n.mark cm.mark) =
      (Tree.read (u ++ w)).head? n := by
  rw [Tree.head?, hhead, Tree.head?]
  cases hfirst : n.activeForms.head? with
  | none => rfl
  | some h =>
    have hmem := Tree.mem_nodes_of_mem_children hn
      (n.activeForms_subset_children (List.mem_of_mem_head? hfirst))
    simp only [Option.map_some, Node.kind_mark]
    by_cases hsymbol : h.kind = .symbol
    · have hword : h.kind.isWord = true := hsymbol ▸ rfl
      rw [if_pos hsymbol, if_pos hsymbol, Tree.text, cm.chars_mark_of_isWord hmem hword, Tree.text]
    · rw [if_neg hsymbol, if_neg hsymbol]

/-! ### Inside the list -/

/-- What is in the list comes after the marker. -/
theorem id_le_of_mem_above {l : Location} (hl : l ∈ (Tree.read (u ++ w)).locations)
    (hlist : cm.list.node ∈ l.above) : cm.mark.id ≤ l.node.id := by
  have hnode := Tree.mem_nodes_of_mem_locations hl
  have hstart := Tree.start_le_of_mem_above cm.ne_nil hl hlist
  have hlt := Tree.lt_stop_read cm.ne_nil _ hnode
  have hoffset := cm.offset_mark
  have hbegin := cm.start_eq
  cases cm.sides hnode with
  | before _ hstop => omega
  | after hid _ _ => exact hid
  | around hid hle hstop _ =>
    -- it would be left where it is, and the list around it shifted
    have hmarked := Tree.start_le_of_mem_above marked_ne_nil (cm.mark_mem_locations hl)
      (List.mem_map_of_mem hlist)
    have hspan := cm.span_mark_of_id_le (Tree.mem_nodes_of_mem_locations cm.mem)
      (Nat.le_of_eq cm.id_eq.symm)
    have hstay : (l.mark cm.mark).node.span.start = l.node.span.start := by
      have hheading : l.node.heading.mark cm.mark = l.node.heading := if_pos hid
      rw [Location.mark, Node.mark_of_lt_stop hstop, hheading]
      rfl
    rw [hspan, hstay] at hmarked
    dsimp only at hmarked
    omega

theorem id_ne_of_id_le (hid : cm.mark.id ≤ n.id) : n.id ≠ cm.parent.id := by
  have hhost : cm.mark.host < cm.mark.id := cm.cut.passed.host_lt
  have hparent : cm.parent.id = cm.mark.host := cm.host_eq
  omega

end Commented

end Typeahead
