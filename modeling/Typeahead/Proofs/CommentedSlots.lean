import Mathlib.Data.List.Find
import Typeahead.Proofs.MarkedTree

/-!
# The rules of slots with a marker more

The rules that give a cursor its slot look at the calls and vectors around it. Each rule
gives the same answer if a marker is put in before a call around the cursor. The nodes
in the call are the same, only later, and so is what is asked of the nodes around the
call: their heads, and the ordinal of the cursor in them. The only node that could
answer differently is the one directly around the call, for its head (`KeepsHead`) and
for the place of its parameter vector (`KeepsSlot`).

* `Commented.Cursors`: a cursor in the call, in both texts;
* `Cursors.ordinal_marked`, `Cursors.head?_marked`: what is asked of the nodes around;
* `Cursors.parameterVectorSlot?_marked`, `Cursors.bindingSlot?_marked` and so on: one for
  each rule.
-/

namespace Typeahead

namespace Location

theorem chain_map_mark (m : Mark) (ns : List Node) :
    chain (ns.map (·.mark m)) = (chain ns).map (·.mark m) := by
  induction ns with
  | nil => rfl
  | cons n ns ih =>
    rw [List.map_cons, chain, ih, chain, List.map_cons]
    rfl

theorem ancestors_mark (m : Mark) (l : Location) :
    (l.mark m).ancestors = l.ancestors.map (·.mark m) :=
  chain_map_mark m l.above

/-- Of nodes around each other, one is told by what is around it. -/
theorem eq_of_mem_chain {l k : Location} {ns : List Node} (hl : l ∈ chain ns) (hk : k ∈ chain ns)
    (habove : l.above = k.above) : l = k := by
  obtain ⟨as, has⟩ := exists_of_mem_chain hl
  obtain ⟨bs, hbs⟩ := exists_of_mem_chain hk
  rw [has, ← habove] at hbs
  have hlength := congrArg List.length hbs
  simp only [List.length_append, List.length_cons] at hlength
  have hnode := (List.append_inj hbs (by omega)).2
  obtain ⟨n, above⟩ := l
  obtain ⟨m, above'⟩ := k
  obtain rfl : above = above' := habove
  exact congrArg (Location.mk · above) (List.cons.inj hnode).1

/-- Up to a node where `p` fails, everything is inside that node. -/
theorem mem_above_of_mem_takeWhile {p : Location → Bool} {path rest : List Node} {f : Node}
    (hp : p ⟨f, rest⟩ = false) {l : Location} {depth : Nat}
    (hl : l ∈ ((chain (path ++ f :: rest)).take depth).takeWhile p) : f ∈ l.above := by
  induction path generalizing depth with
  | nil =>
    cases depth with
    | zero => exact absurd hl List.not_mem_nil
    | succ depth =>
      rw [List.nil_append, chain, List.take_succ_cons, List.takeWhile_cons_of_neg (by simp [hp])]
        at hl
      exact absurd hl List.not_mem_nil
  | cons q path ih =>
    cases depth with
    | zero => exact absurd hl List.not_mem_nil
    | succ depth =>
      rw [List.cons_append, chain, List.take_succ_cons, List.takeWhile_cons] at hl
      split at hl
      · rcases List.mem_cons.1 hl with rfl | hl
        · simp
        · exact ih hl
      · exact absurd hl List.not_mem_nil

end Location

namespace Tree

/-- A sibling of a node around a location is not the node there. -/
theorem id_ne_of_mem_ancestors {cs : List Char} {l k : Location}
    (hl : l ∈ (Tree.read cs).locations) (hk : k ∈ l.ancestors) {p : Node} {rest : List Node}
    (habove : k.above = p :: rest) {n : Node} (hn : n ∈ p.children) : n.id ≠ l.node.id := by
  intro hid
  have hmem := selfAndAncestors_subset_locations hl (List.mem_cons_of_mem _ hk)
  have hchild := children_subset_locations (parent_mem_locations hmem habove).1
    (List.mem_map.2 ⟨n, hn, rfl⟩)
  have heq := congrArg Location.above (location_eq_of_id_eq hchild hl hid)
  obtain ⟨as, has⟩ := Location.exists_of_mem_chain hk
  rw [← heq, habove] at has
  have hlength := congrArg List.length has
  simp at hlength
  omega

end Tree

namespace Commented

variable {u w : List Char} {cm : Commented u w} {c c' : Cursor}

/-- A cursor at a token in the list, and the same cursor in the marked text. -/
structure Cursors (cm : Commented u w) (c c' : Cursor) : Prop where
  standsIn : c.StandsIn (u ++ w)
  inside : cm.list ∈ c.location.ancestors
  isToken : (c.location.node.kind.isCollection || c.location.node.kind == .root) = false
  /-- The text of the list up to the cursor. -/
  exists_text : ∃ s rest, w = cm.opener.text ++ s ++ rest ∧
    c.offset = byteLength (u ++ (cm.opener.text ++ s))
  location_eq : c'.location = c.location.mark cm.mark
  offset_eq : c'.offset = c.offset + 2
  typed_eq : c'.typed = c.typed

namespace Cursors

theorem mem_above (h : Cursors cm c c') : cm.list.node ∈ c.location.above := by
  obtain ⟨as, has⟩ := Location.exists_of_mem_chain h.inside
  simp [has]

theorem mem_nodes (h : Cursors cm c c') {n : Node} (hn : n ∈ c.location.above) :
    n ∈ (Tree.read (u ++ w)).nodes :=
  Tree.mem_nodes_of_mem_above h.standsIn.mem (List.mem_cons_of_mem _ hn)

theorem standsIn_marked (h : Cursors cm c c') : c'.StandsIn (u ++ '#' :: '_' :: w) := by
  have hspan := cm.span_mark_of_id_le (Tree.mem_nodes_of_mem_locations h.standsIn.mem)
    (cm.id_le_of_mem_above h.standsIn.mem h.mem_above)
  have hstart := h.standsIn.start_le
  have hstop := h.standsIn.le_stop
  refine ⟨marked_ne_nil, h.location_eq ▸ cm.mark_mem_locations h.standsIn.mem, ?_, ?_⟩
  · rw [h.location_eq, h.offset_eq, Location.mark, hspan]
    exact Nat.add_le_add_right hstart 2
  · rw [h.location_eq, h.offset_eq, Location.mark, hspan]
    exact Nat.add_le_add_right hstop 2

theorem around_eq (h : Cursors cm c c') (depth : Nat) :
    c.around depth = c.location.ancestors.take depth := by
  rw [Cursor.around]
  simp only [h.isToken]
  rfl

theorem around_marked (h : Cursors cm c c') (depth : Nat) :
    c'.around depth = (c.around depth).map (·.mark cm.mark) := by
  rw [h.around_eq, List.map_take, ← Location.ancestors_mark, ← h.location_eq, Cursor.around]
  have hkind : c'.location.node.kind = c.location.node.kind := by
    rw [h.location_eq]
    exact Node.kind_mark ..
  simp only [hkind, h.isToken]
  rfl

theorem calls_marked (h : Cursors cm c c') (depth : Nat) :
    c'.calls depth = (c.calls depth).map (·.mark cm.mark) := by
  have hkind : ∀ ns : List Node, (ns.map (·.mark cm.mark)).filter (·.kind.isCall) =
      (ns.filter (·.kind.isCall)).map (·.mark cm.mark) := by
    intro ns
    rw [List.filter_map]
    simp only [Function.comp_def, Node.kind_mark]
  rw [Cursor.calls, h.around_marked, List.map_map, Cursor.calls, ← hkind, List.map_map]
  rfl

theorem mem_above_of_mem_calls (h : Cursors cm c c') {depth : Nat} {n : Node}
    (hn : n ∈ c.calls depth) : n ∈ c.location.above ∧ n.kind.isCall = true := by
  refine Cursor.mem_above_of_mem_calls ?_ hn
  have hkind := h.isToken
  revert hkind
  cases c.location.node.kind <;> decide

/-- The list is what leads from the node around it to the cursor. -/
theorem eq_list (h : Cursors cm c c') {l : Location} (hl : l ∈ c.location.selfAndAncestors)
    {outer : List Node} (habove : l.above = cm.parent :: outer) : l = cm.list := by
  have hmem := Tree.selfAndAncestors_subset_locations h.standsIn.mem hl
  have houter := congrArg Location.above (Tree.location_eq_of_id_eq
    (Tree.parent_mem_locations hmem habove).1 cm.parent_mem rfl)
  obtain rfl : outer = cm.outer := houter
  have hlist : cm.list ∈ Location.chain (c.location.node :: c.location.above) :=
    List.mem_cons_of_mem _ h.inside
  exact (Location.eq_of_mem_chain hlist hl (cm.above_eq.trans habove.symm)).symm

theorem ordinal_marked (h : Cursors cm c c') {n : Node} (hn : n ∈ c.location.above) :
    c'.ordinal (n.mark cm.mark) = c.ordinal n := by
  obtain ⟨path, outer, happ⟩ := List.append_of_mem hn
  obtain ⟨child, -, hchild, -⟩ := Tree.exists_child_on_path h.standsIn.ne_nil h.standsIn.mem happ
  have hmarked : Location.mark cm.mark ⟨child, n :: outer⟩ ∈ c'.location.selfAndAncestors := by
    rw [h.location_eq, Location.selfAndAncestors, Location.ancestors_mark, ← List.map_cons]
    exact List.mem_map_of_mem hchild
  rw [h.standsIn_marked.ordinal_eq hmarked rfl, h.standsIn.ordinal_eq hchild rfl]
  by_cases hid : n.id = cm.parent.id
  · obtain rfl := Tree.eq_of_id_eq (h.mem_nodes hn) cm.parent_mem_nodes hid
    rw [h.eq_list hchild rfl, cm.activeBefore_mark_list]
  · have hmem := Tree.selfAndAncestors_subset_locations h.standsIn.mem hchild
    rw [cm.activeBefore_mark hmem rfl hid, List.length_map]

theorem ordinal_parent (h : Cursors cm c c') :
    c.ordinal cm.parent = cm.list.activeBefore.length :=
  h.standsIn.ordinal_eq (List.mem_cons_of_mem _ h.inside) cm.above_eq

/-! ### Heads -/

/-- A node around the cursor keeps its first active form, unless the list stands before
    it. -/
theorem head_activeForms_marked (h : Cursors cm c c') {n : Node} (hn : n ∈ c.location.above)
    (hcase : n.id ≠ cm.parent.id ∨ 0 < c.ordinal n) :
    (n.mark cm.mark).activeForms.head? = n.activeForms.head?.map (·.mark cm.mark) := by
  by_cases hid : n.id = cm.parent.id
  · obtain rfl := Tree.eq_of_id_eq (h.mem_nodes hn) cm.parent_mem_nodes hid
    have hpos := hcase.resolve_left (not_not_intro rfl)
    rw [h.ordinal_parent] at hpos
    obtain ⟨later, later', hforms, hforms', hstay⟩ := cm.exists_activeForms_parent
    obtain ⟨a, as, has⟩ := List.exists_cons_of_length_pos hpos
    rw [has] at hforms hforms' hstay
    rw [hforms, hforms']
    exact congrArg some (List.cons.inj hstay).1.symm
  · rw [cm.activeForms_mark (h.mem_nodes hn) hid, List.head?_map]

/-- The head of the node around the list is the same with the marker, if the list is in
    the place of its operator. -/
def KeepsHead (cm : Commented u w) (c : Cursor) : Prop :=
  cm.parent.kind.isCall = true → c.ordinal cm.parent = 0 →
    (Tree.read (u ++ '#' :: '_' :: w)).head? (cm.parent.mark cm.mark) =
      (Tree.read (u ++ w)).head? cm.parent

theorem head?_marked (h : Cursors cm c c') (hkeep : KeepsHead cm c) {n : Node}
    (hn : n ∈ c.location.above) (hcall : n.kind.isCall = true) :
    (Tree.read (u ++ '#' :: '_' :: w)).head? (n.mark cm.mark) =
      (Tree.read (u ++ w)).head? n := by
  by_cases hcase : n.id ≠ cm.parent.id ∨ 0 < c.ordinal n
  · exact cm.head?_mark (h.mem_nodes hn) (h.head_activeForms_marked hn hcase)
  · rw [not_or, not_not, Nat.not_lt] at hcase
    obtain rfl := Tree.eq_of_id_eq (h.mem_nodes hn) cm.parent_mem_nodes hcase.1
    exact hkeep hcall (Nat.le_zero.1 hcase.2)

/-! ### The rules -/

theorem keywordSlot?_marked (h : Cursors cm c c') : c'.keywordSlot? = c.keywordSlot? := by
  rw [Cursor.keywordSlot?, Cursor.keywordSlot?, h.location_eq, h.typed_eq, Location.mark,
    Node.kind_mark]

theorem newFormSlot?_marked (h : Cursors cm c c') (depth : Nat) :
    c'.newFormSlot? depth = c.newFormSlot? depth := by
  rw [Cursor.newFormSlot?, Cursor.newFormSlot?, h.calls_marked, h.typed_eq, List.isEmpty_map]

theorem definitionSlot?_marked (h : Cursors cm c c') (hkeep : KeepsHead cm c) (config : Config) :
    (Tree.read (u ++ '#' :: '_' :: w)).definitionSlot? config c' =
      (Tree.read (u ++ w)).definitionSlot? config c := by
  rw [Tree.definitionSlot?, Tree.definitionSlot?, h.calls_marked, List.head?_map]
  cases hfirst : (c.calls config.maxTraversalDepth).head? with
  | none => simp only [Option.map_none, Option.bind_eq_bind, Option.bind_none]
  | some n =>
    obtain ⟨hn, hcall⟩ := h.mem_above_of_mem_calls (List.mem_of_mem_head? hfirst)
    simp only [Option.map_some, Option.bind_eq_bind, Option.bind_some,
      h.head?_marked hkeep hn hcall, h.ordinal_marked hn]

theorem functionAround?_marked (h : Cursors cm c c') (hkeep : KeepsHead cm c) (config : Config) :
    (Tree.read (u ++ '#' :: '_' :: w)).functionAround? config c' =
      ((Tree.read (u ++ w)).functionAround? config c).map fun x => (x.1.mark cm.mark, x.2) := by
  have hcalls : ∀ n ∈ c.calls config.maxTraversalDepth,
      n ∈ c.location.above ∧ n.kind.isCall = true := fun n hn => h.mem_above_of_mem_calls hn
  rw [Tree.functionAround?, Tree.functionAround?, h.calls_marked]
  revert hcalls
  generalize c.calls config.maxTraversalDepth = ns
  intro hcalls
  induction ns with
  | nil => rfl
  | cons n ns ih =>
    obtain ⟨hn, hcall⟩ := hcalls n List.mem_cons_self
    rw [List.map_cons, List.findSome?_cons, List.findSome?_cons, h.head?_marked hkeep hn hcall]
    cases ((Tree.read (u ++ w)).head? n).bind (·.parameterSlot?) with
    | none => exact ih fun m hm => hcalls m (List.mem_cons_of_mem _ hm)
    | some k => rfl

theorem namespaceAround?_marked (h : Cursors cm c c') (hkeep : KeepsHead cm c) (config : Config) :
    (Tree.read (u ++ '#' :: '_' :: w)).namespaceAround? config c' =
      ((Tree.read (u ++ w)).namespaceAround? config c).map (·.mark cm.mark) := by
  rw [Tree.namespaceAround?, Tree.namespaceAround?, h.calls_marked, List.find?_map]
  refine congrArg (Option.map _) (List.find?_congr fun n hn => ?_)
  obtain ⟨habove, hcall⟩ := h.mem_above_of_mem_calls hn
  rw [Function.comp_apply, h.head?_marked hkeep habove hcall]

/-- Something stands in the slot of the parameter vector of the node around the list
    with the marker just if it does without. -/
def KeepsSlot (cm : Commented u w) (config : Config) (c : Cursor) : Prop :=
  ∀ k, (Tree.read (u ++ w)).functionAround? config c = some (cm.parent, k) →
    c.ordinal cm.parent = k →
    (cm.parent.mark cm.mark).activeForms[k]?.isSome = cm.parent.activeForms[k]?.isSome

/-- A form of the node around the list is not the one at the cursor. -/
theorem all_parent (h : Cursors cm c c') (k : Nat) :
    cm.parent.activeForms[k]?.all (·.id == c.location.node.id) =
        !cm.parent.activeForms[k]?.isSome ∧
      (cm.parent.mark cm.mark).activeForms[k]?.all (·.id == c'.location.node.id) =
        !(cm.parent.mark cm.mark).activeForms[k]?.isSome := by
  have hall : ∀ {x : Option Node} {id : Nat}, (∀ n ∈ x, n.id ≠ id) →
      x.all (·.id == id) = !x.isSome := by
    intro x id hx
    cases x with
    | none => rfl
    | some n => simpa using hx n rfl
  constructor
  · refine hall fun n hn => ?_
    exact Tree.id_ne_of_mem_ancestors h.standsIn.mem h.inside cm.above_eq
      (Node.activeForms_subset_children _ (List.mem_of_getElem? hn))
  · have hinside : cm.list.mark cm.mark ∈ c'.location.ancestors := by
      rw [h.location_eq, Location.ancestors_mark]
      exact List.mem_map_of_mem h.inside
    have habove : (cm.list.mark cm.mark).above =
        cm.parent.mark cm.mark :: cm.outer.map (·.mark cm.mark) := by
      rw [Location.mark, cm.above_eq, List.map_cons]
    refine hall fun n hn => ?_
    exact Tree.id_ne_of_mem_ancestors h.standsIn_marked.mem hinside habove
      (Node.activeForms_subset_children _ (List.mem_of_getElem? hn))

theorem parameterVectorSlot?_marked (h : Cursors cm c c') (hkeep : KeepsHead cm c)
    {config : Config} (hslot : KeepsSlot cm config c) :
    (Tree.read (u ++ '#' :: '_' :: w)).parameterVectorSlot? config c' =
      (Tree.read (u ++ w)).parameterVectorSlot? config c := by
  rw [Tree.parameterVectorSlot?, Tree.parameterVectorSlot?, h.functionAround?_marked hkeep]
  cases hfunction : (Tree.read (u ++ w)).functionAround? config c with
  | none => simp only [Option.map_none, Option.bind_eq_bind, Option.bind_none]
  | some x =>
    obtain ⟨n, k⟩ := x
    obtain ⟨m, hm, hmap⟩ := List.exists_of_findSome?_eq_some hfunction
    obtain ⟨_, -, hpair⟩ := Option.map_eq_some_iff.1 hmap
    obtain rfl : m = n := congrArg Prod.fst hpair
    have hn := (h.mem_above_of_mem_calls hm).1
    simp only [Option.map_some, Option.bind_eq_bind, Option.bind_some, h.ordinal_marked hn]
    by_cases hordinal : c.ordinal m = k
    · have hall : (m.mark cm.mark).activeForms[k]?.all (·.id == c'.location.node.id) =
          m.activeForms[k]?.all (·.id == c.location.node.id) := by
        by_cases hid : m.id = cm.parent.id
        · obtain rfl := Tree.eq_of_id_eq (h.mem_nodes hn) cm.parent_mem_nodes hid
          rw [(h.all_parent k).1, (h.all_parent k).2, hslot k hfunction hordinal]
        · rw [cm.activeForms_mark (h.mem_nodes hn) hid, List.getElem?_map, h.location_eq]
          cases hform : m.activeForms[k]? with
          | none => rfl
          | some f =>
            have hf := Tree.mem_nodes_of_mem_children (h.mem_nodes hn)
              (m.activeForms_subset_children (List.mem_of_getElem? hform))
            exact cm.id_beq_mark hf (Tree.mem_nodes_of_mem_locations h.standsIn.mem)
      rw [hall]
    · simp [hordinal]

theorem callSlot?_marked (h : Cursors cm c c') (config : Config) {ns : List Node}
    (hns : ∀ n ∈ ns, n ∈ c.location.above) :
    (Tree.read (u ++ '#' :: '_' :: w)).callSlot? config c' (ns.map (·.mark cm.mark)) =
      (Tree.read (u ++ w)).callSlot? config c ns := by
  induction ns with
  | nil => rfl
  | cons n ns ih =>
    have hn := hns n List.mem_cons_self
    have hrest := ih fun m hm => hns m (List.mem_cons_of_mem _ hm)
    rw [List.map_cons, Tree.callSlot?, Tree.callSlot?, h.ordinal_marked hn]
    cases hordinal : c.ordinal n with
    | zero => rfl
    | succ i =>
      have hpos : 0 < c.ordinal n := hordinal ▸ Nat.succ_pos i
      rw [h.head_activeForms_marked hn (.inr hpos)]
      cases hfirst : n.activeForms.head? with
      | none => exact hrest
      | some f =>
        have hf := Tree.mem_nodes_of_mem_children (h.mem_nodes hn)
          (n.activeForms_subset_children (List.mem_of_mem_head? hfirst))
        simp only [Option.map_some, Node.kind_mark]
        cases hkind : f.kind with
        | symbol =>
          have hword : f.kind.isWord = true := hkind ▸ rfl
          have hname : (Tree.read (u ++ '#' :: '_' :: w)).calledName config (f.mark cm.mark) =
              (Tree.read (u ++ w)).calledName config f := by
            rw [Tree.calledName, cm.chars_mark_of_isWord hf hword, Tree.calledName]
          rw [hname]
        | _ => first | rfl | exact hrest

/-! ### Binding vectors -/

/-- The patterns around the cursor are inside the list. -/
theorem mem_above_of_mem_patterns (h : Cursors cm c c') (hcall : cm.list.node.kind.isCall = true)
    {depth : Nat} {l : Location} (hl : l ∈ (c.around depth).takeWhile fun l =>
      l.node.kind == .vector || l.node.kind == .map) : cm.list.node ∈ l.above := by
  obtain ⟨path, happ⟩ := Location.exists_of_mem_chain h.inside
  have hnot : (cm.list.node.kind == .vector || cm.list.node.kind == .map) = false := by
    revert hcall
    cases cm.list.node.kind <;> decide
  rw [h.around_eq, Location.ancestors, happ] at hl
  exact Location.mem_above_of_mem_takeWhile hnot hl

theorem isAtValue_marked (h : Cursors cm c c') {v : Node} (hv : v ∈ c.location.above)
    (hid : v.id ≠ cm.parent.id) (head : Head) :
    c'.isAtValue head (v.mark cm.mark) = c.isAtValue head v := by
  rw [Cursor.isAtValue, Cursor.isAtValue, h.ordinal_marked hv,
    cm.activeForms_mark (h.mem_nodes hv) hid, List.getElem?_map, Option.any_map]
  simp only [Node.kind_mark]

/-- A list in the list has its binding vectors where it had them. -/
theorem isBindingVector_marked (h : Cursors cm c c') (hkeep : KeepsHead cm c) {l : Location}
    (hl : l ∈ c.location.ancestors) (hkind : l.node.kind = .list) (hid : cm.mark.id ≤ l.node.id)
    {v : Node} (hv : v ∈ (Tree.read (u ++ w)).nodes) :
    (Tree.read (u ++ '#' :: '_' :: w)).isBindingVector (l.mark cm.mark) (v.mark cm.mark) =
      (Tree.read (u ++ w)).isBindingVector l v := by
  obtain ⟨path, happ⟩ := Location.exists_of_mem_chain hl
  have hmem : l.node ∈ c.location.above := by simp [happ]
  have hcall : l.node.kind.isCall = true := hkind ▸ rfl
  have hne := cm.id_ne_of_id_le hid
  have hnode := h.mem_nodes hmem
  have hform : ∀ f ∈ l.node.activeForms, f ∈ (Tree.read (u ++ w)).nodes := fun f hf =>
    Tree.mem_nodes_of_mem_children hnode (l.node.activeForms_subset_children hf)
  have hfirst : (l.node.mark cm.mark).activeForms.head?.any (·.id == (v.mark cm.mark).id) =
      l.node.activeForms.head?.any (·.id == v.id) := by
    rw [cm.activeForms_mark hnode hne, List.head?_map]
    exact cm.any_id_mark (fun f hf => hform f (List.mem_of_mem_head? hf)) hv
  have hparameters : (l.node.mark cm.mark).parameterVector?.any (·.id == (v.mark cm.mark).id) =
      l.node.parameterVector?.any (·.id == v.id) := by
    rw [cm.parameterVector?_mark hnode hne]
    exact cm.any_id_mark (fun f hf => hform f (Tree.mem_activeForms_of_parameterVector? hf)) hv
  have hbindings : (l.node.mark cm.mark).bindingVector?.any (·.id == (v.mark cm.mark).id) =
      l.node.bindingVector?.any (·.id == v.id) := by
    rw [cm.bindingVector?_mark hnode hne]
    exact cm.any_id_mark (fun f hf => hform f (Tree.mem_activeForms_of_bindingVector? hf)) hv
  have houtside : ((l.mark cm.mark).above.head?.any fun p => p.kind == .list &&
        (((Tree.read (u ++ '#' :: '_' :: w)).head? p).bind (·.parameterSlot?)).isSome) =
      l.above.head?.any fun p => p.kind == .list &&
        (((Tree.read (u ++ w)).head? p).bind (·.parameterSlot?)).isSome := by
    rw [Location.mark, List.head?_map, Option.any_map]
    cases hparent : l.above.head? with
    | none => rfl
    | some p =>
      have hp : p ∈ c.location.above := by
        have := List.mem_of_mem_head? hparent
        simp [happ, this]
      rw [Option.any_some, Option.any_some, Node.kind_mark]
      by_cases hlist : p.kind = .list
      · rw [h.head?_marked hkeep hp (hlist ▸ rfl)]
      · rw [beq_false_of_ne hlist, Bool.false_and, Bool.false_and]
  have hhead : (Tree.read (u ++ '#' :: '_' :: w)).head? (l.mark cm.mark).node =
      (Tree.read (u ++ w)).head? l.node := h.head?_marked hkeep hmem hcall
  rw [Tree.isBindingVector, Tree.isBindingVector, houtside, hhead]
  dsimp only [Location.mark]
  rw [hfirst, hparameters, hbindings]

theorem id_le_of_mem_ancestors (h : Cursors cm c c') {l : Location}
    (hl : l ∈ c.location.ancestors) (hlist : cm.list.node ∈ l.above) :
    cm.mark.id ≤ l.node.id :=
  cm.id_le_of_mem_above
    (Tree.selfAndAncestors_subset_locations h.standsIn.mem (List.mem_cons_of_mem _ hl)) hlist

/-- What is around a node in the list is the list, or in the list, too. -/
theorem exists_parent_of_mem_above (h : Cursors cm c c') {l : Location}
    (hl : l ∈ c.location.ancestors) (hlist : cm.list.node ∈ l.above) :
    ∃ q rest, l.above = q :: rest ∧ ⟨q, rest⟩ ∈ c.location.ancestors ∧ cm.mark.id ≤ q.id := by
  obtain ⟨q, rest, habove⟩ := List.exists_cons_of_ne_nil (List.ne_nil_of_mem hlist)
  obtain ⟨as, happ⟩ := Location.exists_of_mem_chain hl
  have hparent : ⟨q, rest⟩ ∈ c.location.ancestors := by
    rw [Location.ancestors, happ, habove, List.append_cons]
    exact Location.mem_chain_append q _ rest
  refine ⟨q, rest, habove, hparent, ?_⟩
  rw [habove] at hlist
  rcases List.mem_cons.1 hlist with heq | hlist
  · exact Nat.le_of_eq (heq ▸ cm.id_eq.symm)
  · exact h.id_le_of_mem_ancestors hparent hlist

/-- The innermost vector among patterns in the list is closed with the marker just if it
    is without. -/
theorem isClosed_innermost_marked (h : Cursors cm c c') {patterns : List Location}
    (hinside : ∀ l ∈ patterns, l ∈ c.location.ancestors ∧ cm.list.node ∈ l.above) {l : Location}
    (hl : l ∈ patterns) :
    (((patterns.map (·.mark cm.mark)).find? (·.node.kind == .vector)).getD
        (l.mark cm.mark)).node.isClosed =
      ((patterns.find? (·.node.kind == .vector)).getD l).node.isClosed := by
  have hclosed : ∀ k ∈ patterns, (k.mark cm.mark).node.isClosed = k.node.isClosed := by
    intro k hk
    obtain ⟨hmem, hlist⟩ := hinside k hk
    exact cm.isClosed_mark (h.mem_nodes (Location.mem_above_of_mem_ancestors hmem))
      (cm.id_ne_of_id_le (h.id_le_of_mem_ancestors hmem hlist))
  rw [List.find?_map]
  simp only [Function.comp_def, Location.mark, Node.kind_mark]
  cases hfind : patterns.find? (·.node.kind == .vector) with
  | none => exact hclosed l hl
  | some k => exact hclosed k (List.mem_of_find?_eq_some hfind)

theorem bindingSlot?_marked (h : Cursors cm c c') (hkeep : KeepsHead cm c)
    (hcall : cm.list.node.kind.isCall = true) (config : Config) :
    (Tree.read (u ++ '#' :: '_' :: w)).bindingSlot? config c' =
      (Tree.read (u ++ w)).bindingSlot? config c := by
  have hinside : ∀ l ∈ (c.around config.maxTraversalDepth).takeWhile fun l =>
      l.node.kind == .vector || l.node.kind == .map, l ∈ c.location.ancestors ∧
        cm.list.node ∈ l.above := fun l hl =>
    ⟨List.take_subset _ _ (h.around_eq _ ▸ (List.takeWhile_sublist _).subset hl),
      h.mem_above_of_mem_patterns hcall hl⟩
  have hpatterns : ((c'.around config.maxTraversalDepth).takeWhile fun l =>
        l.node.kind == .vector || l.node.kind == .map) =
      ((c.around config.maxTraversalDepth).takeWhile fun l =>
        l.node.kind == .vector || l.node.kind == .map).map (·.mark cm.mark) := by
    rw [h.around_marked, List.takeWhile_map]
    simp only [Function.comp_def, Location.mark, Node.kind_mark]
  rw [Tree.bindingSlot?, Tree.bindingSlot?, hpatterns]
  revert hinside
  generalize ((c.around config.maxTraversalDepth).takeWhile fun l =>
    l.node.kind == .vector || l.node.kind == .map) = patterns
  intro hinside
  rw [List.getLast?_map]
  cases hlast : patterns.getLast? with
  | none => simp only [Option.map_none, Option.bind_eq_bind, Option.bind_none]
  | some l =>
    have hmem := List.mem_of_getLast? hlast
    obtain ⟨hl, hlist⟩ := hinside l hmem
    obtain ⟨q, rest, habove, hparent, hqid⟩ := h.exists_parent_of_mem_above hl hlist
    have hvid := h.id_le_of_mem_ancestors hl hlist
    have hv := Location.mem_above_of_mem_ancestors hl
    have hparent? : l.parent? = some ⟨q, rest⟩ := by
      rw [Location.parent?, habove]
    have hmarked? : (l.mark cm.mark).parent? = some (Location.mark cm.mark ⟨q, rest⟩) := by
      rw [Location.parent?, Location.mark, habove]
      rfl
    have hmark : (l.mark cm.mark).node = l.node.mark cm.mark := rfl
    have hmark' : (Location.mark cm.mark ⟨q, rest⟩).node = q.mark cm.mark := rfl
    simp only [Option.map_some, Option.bind_eq_bind, Option.bind_some, hparent?, hmarked?, hmark,
      hmark', Node.kind_mark, cm.chars_mark_of_id_le (h.mem_nodes hv) hvid,
      h.isClosed_innermost_marked hinside hmem]
    by_cases hkind : q.kind = .list
    · have hbinding := h.isBindingVector_marked hkeep hparent hkind hqid (h.mem_nodes hv)
      have hvalue : ∀ head, c'.isAtValue head (l.node.mark cm.mark) = c.isAtValue head l.node :=
        h.isAtValue_marked hv (cm.id_ne_of_id_le hvid)
      simp only [hbinding, h.head?_marked hkeep (Location.mem_above_of_mem_ancestors hparent)
        (hkind ▸ rfl), hvalue]
    · simp [hkind]

end Cursors

end Commented

end Typeahead
