import Typeahead.Proofs.Surroundings
import Typeahead.Proofs.Tokens

/-!
# Recorded parents

A tree holds its nodes inside each other. A host that wants to refer to a node
by its number keeps a *register* instead: one record for each node, under its
number, with the numbers of its parent and of its children. A register can be
built by the same steps as a tree, each of which changes one record or appends
one. This module shows that the two constructions agree after every step, for
any steps in any order, also where more nodes are closed than were opened.

* `Register.Shows.apply`: what one step does to the tree under construction, it
  does to the register;
* `Register.records_build`: the records of the tree are those of the register;
* `Builder.numbered_build`: nodes are numbered in the order of creation, which
  is tree order, each is recorded once, as a child of its parent, and parents
  have smaller numbers, so that they lead to the root.
-/

namespace Typeahead

/-- What a register keeps of a node. -/
structure Record where
  kind : Kind
  span : Span
  /-- The number of the parent; the root has none. -/
  parent : Option Nat
  /-- The numbers of the children. -/
  children : List Nat
  deriving DecidableEq, Repr

namespace Record

/-- The record with one more child. -/
def add (r : Record) (id : Nat) : Record := { r with children := r.children ++ [id] }

/-- The record with its end moved to `stop`. -/
def close (r : Record) (stop : Nat) : Record := { r with span := ⟨r.span.start, stop⟩ }

/-- The number of the parent that is recorded for a node. -/
def parentOf? (rs : List Record) (id : Nat) : Option Nat := rs[id]?.bind (·.parent)

/-- The numbers of the children that are recorded for a node. -/
def childrenOf (rs : List Record) (id : Nat) : List Nat := (rs[id]?.map (·.children)).getD []

/-- The numbers met by going from a node to its recorded parent and on from
    there, at most `k` of them. -/
def climb (rs : List Record) : (k id : Nat) → List Nat
  | 0, _ => []
  | k + 1, id =>
    match parentOf? rs id with
    | none => []
    | some p => p :: climb rs k p

end Record

/-- A construction that keeps a record for each node, under its number. -/
structure Register where
  records : List Record
  /-- The numbers of the open nodes, innermost first. -/
  opened : List Nat

namespace Register

/-- The register of a source of which only the root is there. -/
def new (source : List Char) : Register :=
  ⟨[⟨.root, ⟨0, byteLength source⟩, none, []⟩], [0]⟩

/-- The number of the innermost open node. -/
def current (r : Register) : Nat := r.opened.head?.getD 0

/-- Appends a record, as the last child of the innermost open node. -/
def push (r : Register) (kind : Kind) (span : Span) : Register :=
  { r with
    records := r.records.modify r.current (·.add r.records.length) ++
      [⟨kind, span, some r.current, []⟩] }

/-- Opens a node at the offset `start`. -/
def start (r : Register) (kind : Kind) (start : Nat) : Register :=
  { r.push kind (.empty start) with opened := r.records.length :: r.opened }

/-- Closes the innermost open node at the offset `stop`; the root stays open. -/
def finish (r : Register) (stop : Nat) : Register :=
  match r.opened with
  | id :: outer :: rest => ⟨r.records.modify id (·.close stop), outer :: rest⟩
  | _ => r

/-- Takes a step. -/
def apply (r : Register) : Builder.Step → Register
  | .start kind start => r.start kind start
  | .finish stop => r.finish stop
  | .token kind span => r.push kind span

/-- The records, when the nodes with the given numbers, innermost first and the
    root last, are closed at `stop`; the root stays as it is. -/
def closeAll (stop : Nat) (rs : List Record) : List Nat → List Record
  | id :: outer :: rest => closeAll stop (rs.modify id (·.close stop)) (outer :: rest)
  | _ => rs

/-- The records of the nodes that the steps build over a source. -/
def build (source : List Char) (steps : List Builder.Step) : List Record :=
  let r := steps.foldl apply (new source)
  closeAll (byteLength source) r.records r.opened

end Register

/-! ### The records of a tree -/

/-- The record of the node at a location. -/
def Location.record (l : Location) : Record :=
  ⟨l.node.kind, l.node.span, l.above.head?.map (·.id), l.node.children.map (·.id)⟩

/-- The records of all nodes of a tree, each before those of its children. -/
def Tree.records (t : Tree) : List Record := t.locations.map (·.record)

mutual

/-- The records of a node with the given parent and of all nodes below it. -/
def Node.records (parent : Option Nat) : Node → List Record
  | ⟨id, kind, span, children⟩ =>
    ⟨kind, span, parent, children.map (·.id)⟩ :: Node.recordsAll id children

/-- The records of nodes with the same parent, and of all nodes below them. -/
def Node.recordsAll (parent : Nat) : List Node → List Record
  | [] => []
  | n :: ns => n.records (some parent) ++ Node.recordsAll parent ns

end

mutual

theorem Node.map_record_locations (above : List Node) : (n : Node) →
    (n.locations above).map (·.record) = n.records (above.head?.map (·.id))
  | ⟨id, kind, span, ns⟩ => by
    rw [Node.locations, List.map_cons, Node.map_record_locationsAll _ above ns, Node.records]
    rfl

theorem Node.map_record_locationsAll (p : Node) (above : List Node) : (ns : List Node) →
    (Node.locationsAll (p :: above) ns).map (·.record) = Node.recordsAll p.id ns
  | [] => rfl
  | n :: ns => by
    rw [Node.locationsAll, List.map_append, Node.map_record_locations _ n,
      Node.map_record_locationsAll p above ns, Node.recordsAll]
    rfl

end

theorem Node.records_eq (parent : Option Nat) (n : Node) :
    n.records parent =
      ⟨n.kind, n.span, parent, n.children.map (·.id)⟩ :: Node.recordsAll n.id n.children := by
  obtain ⟨id, kind, span, ns⟩ := n
  rw [Node.records]

theorem Node.recordsAll_append (parent : Nat) (ms ns : List Node) :
    Node.recordsAll parent (ms ++ ns) = Node.recordsAll parent ms ++ Node.recordsAll parent ns := by
  induction ms with
  | nil => rfl
  | cons m ms ih =>
    rw [List.cons_append, Node.recordsAll, Node.recordsAll, ih, List.append_assoc]

mutual

theorem Node.length_records (parent : Option Nat) : (n : Node) →
    (n.records parent).length = n.preorder.length
  | ⟨id, kind, span, ns⟩ => by
    rw [Node.records, Node.preorder, List.length_cons, List.length_cons,
      Node.length_recordsAll id ns]

theorem Node.length_recordsAll (parent : Nat) : (ns : List Node) →
    (Node.recordsAll parent ns).length = (Node.preorderAll ns).length
  | [] => rfl
  | n :: ns => by
    rw [Node.recordsAll, Node.preorderAll, List.length_append, List.length_append,
      Node.length_records _ n, Node.length_recordsAll parent ns]

end

/-! ### The records of a tree under construction -/

/-- The record of an open node inside the open nodes `around`; `inner` is the
    number of the child that is open too. The root, which nothing is around, has
    its end from the beginning. -/
def Frame.record (length : Nat) (inner : Option Nat) (f : Frame) (around : List Frame) : Record :=
  ⟨f.kind, ⟨f.start, if around.isEmpty then length else f.start⟩, around.head?.map (·.id),
    f.children.reverse.map (·.id) ++ inner.toList⟩

namespace Builder

variable {b : Builder}

/-- The kind of the node that a step creates, if it creates one. -/
def Step.creates? : Step → Option Kind
  | .start kind _ => some kind
  | .token kind _ => some kind
  | .finish _ => none

theorem source_apply (b : Builder) (step : Step) : (b.apply step).source = b.source := by
  cases step with
  | start kind start => rfl
  | token kind span => rfl
  | finish stop =>
    rw [apply, finish]
    split <;> rfl

theorem source_foldl_apply (b : Builder) (steps : List Step) :
    (steps.foldl apply b).source = b.source := by
  induction steps generalizing b with
  | nil => rfl
  | cons step steps ih => rw [List.foldl_cons, ih, source_apply]

/-- The records of open nodes, given innermost first, and of all nodes inside
    them, in tree order. -/
def recordsIn (length : Nat) : (inner : Option Nat) → List Frame → List Record
  | _, [] => []
  | inner, f :: fs =>
    recordsIn length (some f.id) fs ++
      f.record length inner fs :: Node.recordsAll f.id f.children.reverse

/-- The records of the nodes so far, in tree order. -/
def records (b : Builder) : List Record := recordsIn (byteLength b.source) none b.frames

theorem length_recordsIn (length : Nat) (inner : Option Nat) (fs : List Frame) :
    (recordsIn length inner fs).length = (idsIn fs).length := by
  induction fs generalizing inner with
  | nil => rfl
  | cons f fs ih =>
    rw [recordsIn, idsIn, List.length_append, List.length_append, ih, List.length_cons,
      List.length_cons, Node.length_recordsAll, List.length_map]

/-- Where nodes are numbered in tree order, the record of an open node stands
    under its number. -/
theorem length_recordsIn_eq_id {f : Frame} {fs : List Frame} {k : Nat}
    (h : idsIn (f :: fs) = List.range k) (length : Nat) :
    (recordsIn length (some f.id) fs).length = f.id := by
  have hget : (List.range k)[(idsIn fs).length]? = some f.id := by
    rw [← h, idsIn, List.getElem?_append_right (Nat.le_refl _), Nat.sub_self,
      List.getElem?_cons_zero]
  rw [length_recordsIn]
  obtain ⟨_, hid⟩ := List.getElem?_eq_some_iff.1 hget
  rwa [List.getElem_range] at hid

end Builder

theorem modify_append_cons {α : Type} (as : List α) (a : α) (bs : List α) (f : α → α) :
    (as ++ a :: bs).modify as.length f = as ++ f a :: bs := by
  induction as with
  | nil => rfl
  | cons x as ih => simpa using ih

namespace Register

variable {r : Register} {b : Builder}

/-- The register shows the tree under construction. -/
structure Shows (r : Register) (b : Builder) : Prop where
  records_eq : r.records = b.records
  opened_eq : r.opened = b.frames.map (·.id)
  ids_eq : b.ids = List.range b.next

namespace Shows

theorem current_eq (h : r.Shows b) : r.current = b.top.id := by
  rw [current, h.opened_eq]
  rfl

theorem length_eq (h : r.Shows b) : r.records.length = b.next := by
  have hlength := congrArg List.length h.ids_eq
  rw [h.records_eq, Builder.records, Builder.length_recordsIn]
  rwa [List.length_range] at hlength

/-- The records split around that of the innermost open node, which stands
    under its number. -/
theorem modify_records (h : r.Shows b) (f : Record → Record) :
    r.records.modify b.top.id f =
      Builder.recordsIn (byteLength b.source) (some b.top.id) b.below ++
        f (b.top.record (byteLength b.source) none b.below) ::
          Node.recordsAll b.top.id b.top.children.reverse := by
  have hid := Builder.length_recordsIn_eq_id h.ids_eq (byteLength b.source)
  have hmodify := modify_append_cons
    (Builder.recordsIn (byteLength b.source) (some b.top.id) b.below)
    (b.top.record (byteLength b.source) none b.below)
    (Node.recordsAll b.top.id b.top.children.reverse) f
  rw [hid] at hmodify
  rw [h.records_eq]
  exact hmodify

/-- Appending a record gives the innermost open node one more child. -/
theorem records_push (h : r.Shows b) (kind : Kind) (span : Span) :
    (r.push kind span).records =
      Builder.recordsIn (byteLength b.source) (some b.next) b.frames ++
        [⟨kind, span, some b.top.id, []⟩] := by
  have hadd : (b.top.record (byteLength b.source) none b.below).add b.next =
      b.top.record (byteLength b.source) (some b.next) b.below := by
    simp [Frame.record, Record.add]
  rw [push, h.current_eq, h.length_eq, h.modify_records, hadd]
  rfl

theorem start (h : r.Shows b) (kind : Kind) (start : Nat) :
    (r.start kind start).Shows (b.start kind start) where
  records_eq := by
    change (r.push kind (.empty start)).records = _
    rw [h.records_push]
    rfl
  opened_eq := by
    rw [Register.start, h.opened_eq, h.length_eq]
    rfl
  ids_eq := by
    rw [Builder.ids_start, h.ids_eq]
    exact List.range_succ.symm

theorem token (h : r.Shows b) (kind : Kind) (span : Span) :
    (r.push kind span).Shows (b.token kind span) where
  records_eq := by
    rw [h.records_push, Builder.records, Builder.frames, Builder.frames, Builder.token,
      Builder.recordsIn, Builder.recordsIn]
    simp [Frame.record, Frame.add, Node.recordsAll_append, Node.recordsAll, Node.records]
  opened_eq := h.opened_eq
  ids_eq := by
    rw [Builder.ids_token, h.ids_eq]
    exact List.range_succ.symm

theorem finish (h : r.Shows b) (stop : Nat) : (r.finish stop).Shows (b.finish stop) := by
  have hids : (b.finish stop).ids = List.range (b.finish stop).next := by
    rw [Builder.ids_finish, Builder.next_finish, h.ids_eq]
  cases hbelow : b.below with
  | nil =>
    have hr : r.finish stop = r := by
      rw [Register.finish, h.opened_eq, Builder.frames, hbelow]
      rfl
    rw [hr, Builder.finish_nil hbelow]
    exact h
  | cons f fs =>
    have hr : r.finish stop =
        ⟨r.records.modify b.top.id (·.close stop), (f :: fs).map (·.id)⟩ := by
      rw [Register.finish, h.opened_eq, Builder.frames, hbelow]
      rfl
    rw [Builder.finish_cons hbelow] at hids ⊢
    rw [hr]
    refine ⟨?_, rfl, hids⟩
    -- the node that is closed goes on right where its record stands
    rw [h.modify_records, hbelow, Builder.records, Builder.frames, Builder.recordsIn,
      Builder.recordsIn]
    simp [Frame.record, Frame.add, Frame.close, Record.close, Node.recordsAll_append,
      Node.recordsAll, Node.records]

/-- What a step does to the tree under construction, it does to the register. -/
theorem apply (h : r.Shows b) (step : Builder.Step) : (r.apply step).Shows (b.apply step) := by
  cases step with
  | start kind start => exact h.start kind start
  | finish stop => exact h.finish stop
  | token kind span => exact h.token kind span

theorem foldl_apply (h : r.Shows b) (steps : List Builder.Step) :
    (steps.foldl Register.apply r).Shows (steps.foldl Builder.apply b) := by
  induction steps generalizing r b with
  | nil => exact h
  | cons step steps ih => exact ih (h.apply step)

end Shows

theorem shows_new (source : List Char) : (new source).Shows (Builder.new source) :=
  ⟨rfl, rfl, rfl⟩

/-- Closing all that is open gives the records of the finished tree. -/
theorem Shows.closeAll_eq (h : r.Shows b) :
    closeAll (byteLength b.source) r.records r.opened = b.toTree.records := by
  obtain ⟨source, top, below, next⟩ := b
  induction below generalizing r top with
  | nil =>
    rw [h.opened_eq, h.records_eq]
    rw [Tree.records, Tree.locations, Node.map_record_locations, Builder.toTree]
    simp [closeAll, Builder.frames, Builder.records, Builder.recordsIn, Frame.closeAll,
      Frame.record, Frame.close, Node.records]
  | cons f fs ih =>
    have hfinish := h.finish (byteLength source)
    have hr : r.opened = top.id :: f.id :: fs.map (·.id) := h.opened_eq
    rw [Register.finish, hr] at hfinish
    rw [hr]
    exact ih _ hfinish

/-- The records of a tree are those that a register keeps while it is built. -/
theorem records_build (source : List Char) (steps : List Builder.Step) :
    (Builder.build source steps).records = build source steps := by
  have h := (shows_new source).foldl_apply steps
  rw [Builder.build, ← h.closeAll_eq, Builder.source_foldl_apply, build]
  rfl

/-! ### Kinds of records -/

theorem map_kind_modify (rs : List Record) (id : Nat) {f : Record → Record}
    (hf : ∀ r, (f r).kind = r.kind) : (rs.modify id f).map (·.kind) = rs.map (·.kind) := by
  induction rs generalizing id with
  | nil => cases id <;> rfl
  | cons r rs ih =>
    cases id with
    | zero => exact congrArg (· :: _) (hf r)
    | succ id => exact congrArg (r.kind :: ·) (ih id)

theorem map_kind_push (r : Register) (kind : Kind) (span : Span) :
    (r.push kind span).records.map (·.kind) = r.records.map (·.kind) ++ [kind] := by
  have hmodify : (r.records.modify r.current (·.add r.records.length)).map (·.kind) = _ :=
    map_kind_modify _ _ fun _ => rfl
  rw [push, List.map_append, hmodify]
  rfl

/-- Steps only append records, and never change the kind of one. -/
theorem map_kind_foldl_apply (r : Register) (steps : List Builder.Step) :
    (steps.foldl apply r).records.map (·.kind) =
      r.records.map (·.kind) ++ steps.filterMap (·.creates?) := by
  induction steps generalizing r with
  | nil => exact (List.append_nil _).symm
  | cons step steps ih =>
    rw [List.foldl_cons, ih]
    cases step with
    | start kind start =>
      have h : (r.start kind start).records.map (·.kind) = r.records.map (·.kind) ++ [kind] :=
        map_kind_push r kind _
      rw [apply, h, List.append_assoc]
      rfl
    | token kind span =>
      rw [apply, map_kind_push, List.append_assoc]
      rfl
    | finish stop =>
      have h : (r.finish stop).records.map (·.kind) = r.records.map (·.kind) := by
        rw [finish]
        split
        · exact map_kind_modify _ _ fun _ => rfl
        · rfl
      rw [apply, h]
      rfl

theorem map_kind_closeAll (stop : Nat) (rs : List Record) (ids : List Nat) :
    (closeAll stop rs ids).map (·.kind) = rs.map (·.kind) := by
  fun_induction closeAll stop rs ids with
  | case1 rs id outer rest ih => exact ih.trans (map_kind_modify _ _ fun _ => rfl)
  | case2 rs ids h => rfl

theorem map_kind_build (source : List Char) (steps : List Builder.Step) :
    (build source steps).map (·.kind) = .root :: steps.filterMap (·.creates?) := by
  rw [build, map_kind_closeAll, map_kind_foldl_apply]
  rfl

end Register

/-! ### Numbers in tree order -/

namespace Node

mutual

/-- The nodes inside a node of `n` stand in one piece among those inside `n`. -/
theorem preorder_sublist_of_mem {m : Node} : (n : Node) → m ∈ n.preorder →
    m.preorder.Sublist n.preorder
  | ⟨id, kind, span, ns⟩, hm => by
    rw [preorder] at hm
    rcases List.mem_cons.1 hm with rfl | hm
    · exact List.Sublist.refl _
    · rw [preorder]
      exact (preorderAll_sublist_of_mem ns hm).cons _

theorem preorderAll_sublist_of_mem {m : Node} : (ns : List Node) → m ∈ preorderAll ns →
    m.preorder.Sublist (preorderAll ns)
  | [], hm => absurd hm (by rw [preorderAll]; exact List.not_mem_nil)
  | n :: ns, hm => by
    rw [preorderAll] at hm ⊢
    rcases List.mem_append.1 hm with hm | hm
    · exact (preorder_sublist_of_mem n hm).trans (List.sublist_append_left ..)
    · exact (preorderAll_sublist_of_mem ns hm).trans (List.sublist_append_right ..)

end

theorem sublist_preorderAll (ns : List Node) : ns.Sublist (preorderAll ns) := by
  induction ns with
  | nil => exact List.Sublist.refl _
  | cons n ns ih =>
    rw [preorderAll, preorder_eq]
    exact (ih.trans (List.sublist_append_right ..)).cons_cons n

end Node

namespace Tree

variable {t : Tree} {l p : Location}

/-- Nodes are numbered in tree order, without gaps. -/
def InOrder (t : Tree) : Prop := t.nodes.map (·.id) = List.range t.nodes.length

namespace InOrder

theorem pairwise (h : t.InOrder) : t.nodes.Pairwise (·.id < ·.id) := by
  have hrange := List.pairwise_lt_range (n := t.nodes.length)
  rw [← h] at hrange
  exact List.pairwise_map.1 hrange

/-- Locations stand under the numbers of their nodes. -/
theorem id_of_getElem? (h : t.InOrder) {i : Nat} (hi : t.locations[i]? = some l) :
    l.node.id = i := by
  have hid : (List.range t.nodes.length)[i]? = some l.node.id := by
    rw [← h, nodes, ← Node.map_node_locations [] t.root, List.getElem?_map, List.getElem?_map]
    exact congrArg (fun o => (o.map (·.node)).map (·.id)) hi
  obtain ⟨_, hid⟩ := List.getElem?_eq_some_iff.1 hid
  rw [List.getElem_range] at hid
  exact hid.symm

theorem getElem?_locations (h : t.InOrder) (hl : l ∈ t.locations) :
    t.locations[l.node.id]? = some l := by
  obtain ⟨i, hi⟩ := List.mem_iff_getElem?.1 hl
  rwa [h.id_of_getElem? hi]

theorem location_eq (h : t.InOrder) (hl : l ∈ t.locations) (hp : p ∈ t.locations)
    (hid : l.node.id = p.node.id) : l = p := by
  have hget := h.getElem?_locations hl
  rw [hid, h.getElem?_locations hp] at hget
  exact (Option.some.inj hget).symm

/-- What is inside a node comes after it. -/
theorem pairwise_preorder (h : t.InOrder) (hl : l ∈ t.locations) :
    (l.node :: Node.preorderAll l.node.children).Pairwise (·.id < ·.id) := by
  rw [← Node.preorder_eq]
  exact h.pairwise.sublist (Node.preorder_sublist_of_mem _ (mem_nodes_of_mem_locations hl))

theorem lt_of_mem_children (h : t.InOrder) (hl : l ∈ t.locations) {c : Node}
    (hc : c ∈ l.node.children) : l.node.id < c.id :=
  List.rel_of_pairwise_cons (h.pairwise_preorder hl) ((Node.sublist_preorderAll _).subset hc)

theorem nodup_children (h : t.InOrder) (hl : l ∈ t.locations) :
    (l.node.children.map (·.id)).Nodup := by
  have hpairwise := (h.pairwise_preorder hl).of_cons.sublist (Node.sublist_preorderAll _)
  exact List.pairwise_map.2 (hpairwise.imp Nat.ne_of_lt)

theorem id_root (h : t.InOrder) : t.root.id = 0 := by
  have hhead := congrArg List.head? h
  rw [nodes, Node.preorder_eq] at hhead
  simpa [List.range_succ_eq_map] using hhead

theorem parentOf?_eq (h : t.InOrder) (hl : l ∈ t.locations) :
    Record.parentOf? t.records l.node.id = l.above.head?.map (·.id) := by
  rw [Record.parentOf?, records, List.getElem?_map, h.getElem?_locations hl]
  rfl

theorem childrenOf_eq (h : t.InOrder) (hl : l ∈ t.locations) :
    Record.childrenOf t.records l.node.id = l.node.children.map (·.id) := by
  rw [Record.childrenOf, records, List.getElem?_map, h.getElem?_locations hl]
  rfl

/-- A node is recorded as a child once, for its parent. -/
theorem count_childrenOf (h : t.InOrder) (hl : l ∈ t.locations) {v : Node} {above : List Node}
    (habove : l.above = v :: above) (q : Nat) :
    (Record.childrenOf t.records q).count l.node.id = if q = v.id then 1 else 0 := by
  obtain ⟨hv, hchild⟩ := parent_mem_locations hl habove
  split
  · next hq =>
    rw [hq, h.childrenOf_eq hv]
    rw [(h.nodup_children hv).count, if_pos (List.mem_map_of_mem hchild)]
  · next hq =>
    rw [List.count_eq_zero]
    intro hmem
    cases hget : t.locations[q]? with
    | none =>
      rw [Record.childrenOf, records, List.getElem?_map, hget] at hmem
      exact absurd hmem List.not_mem_nil
    | some p =>
      rw [Record.childrenOf, records, List.getElem?_map, hget] at hmem
      obtain ⟨c, hc, hid⟩ := List.mem_map.1 hmem
      have hp := List.mem_of_getElem? hget
      have hother := children_subset_locations hp (List.mem_map.2 ⟨c, hc, rfl⟩)
      have heq := congrArg Location.above (h.location_eq hother hl hid)
      rw [habove] at heq
      -- both have the same nodes around them, so `q` is the number of the parent
      have hparent : p.node.id = v.id := congrArg Node.id (List.cons.inj heq).1
      exact hq ((h.id_of_getElem? hget).symm.trans hparent)

/-- Going from a node to its recorded parent and on from there ends at the root,
    after no more steps than the number of the node says. -/
theorem climb_eq (h : t.InOrder) (hl : l ∈ t.locations) {k : Nat} (hk : l.node.id ≤ k) :
    Record.climb t.records k l.node.id = l.ancestors.map (·.node.id) ∧
      (l.selfAndAncestors.map (·.node.id)).getLast? = some 0 := by
  obtain ⟨n, above⟩ := l
  induction above generalizing n k with
  | nil =>
    have hparent : Record.parentOf? t.records n.id = none := h.parentOf?_eq hl
    rcases Node.exists_parent_of_mem_locations [] t.root hl with heq | ⟨p, -, hchild⟩
    · obtain rfl : n = t.root := congrArg Location.node heq
      refine ⟨?_, congrArg some h.id_root⟩
      cases k with
      | zero => rfl
      | succ k =>
        rw [Record.climb, hparent]
        rfl
    · obtain ⟨c, -, hc⟩ := List.mem_map.1 hchild
      cases hc
  | cons v above ih =>
    obtain ⟨hv, hchild⟩ := parent_mem_locations hl rfl
    have hlt : v.id < n.id := h.lt_of_mem_children hv hchild
    have hparent : Record.parentOf? t.records n.id = some v.id := h.parentOf?_eq hl
    obtain ⟨k, rfl⟩ := Nat.exists_eq_succ_of_ne_zero (Nat.ne_of_gt (Nat.lt_of_lt_of_le
      (Nat.zero_lt_of_lt hlt) hk))
    obtain ⟨hclimb, hlast⟩ := ih v hv (k := k) (Nat.le_of_lt_succ (Nat.lt_of_lt_of_le hlt hk))
    refine ⟨?_, hlast⟩
    rw [Record.climb, hparent]
    exact congrArg (v.id :: ·) hclimb

end InOrder

/-- What is recorded of the nodes of a tree. -/
structure Numbered (t : Tree) (rs : List Record) : Prop where
  /-- The records are those of the nodes, each before those of its children. -/
  records_eq : t.records = rs
  /-- In tree order, the root comes first and the numbers count up. -/
  ids_eq : t.nodes.map (·.id) = List.range rs.length
  /-- A node other than the root is recorded as a child once, for its own recorded
      parent, which has a smaller number. -/
  parent : ∀ id, 0 < id → id < rs.length → ∃ p < id, Record.parentOf? rs id = some p ∧
    ∀ q, (Record.childrenOf rs q).count id = if q = p then 1 else 0
  /-- However far one goes, the recorded parents of a node are the nodes around
      it, and the last of them is the root. -/
  climb : ∀ l ∈ t.locations, ∀ k ≥ l.node.id,
    Record.climb rs k l.node.id = l.ancestors.map (·.node.id) ∧
      (l.selfAndAncestors.map (·.node.id)).getLast? = some 0

theorem InOrder.numbered (h : t.InOrder) : t.Numbered t.records where
  records_eq := rfl
  ids_eq := by
    have hlength : t.records.length = t.nodes.length := by
      rw [records, nodes, ← Node.map_node_locations [] t.root, List.length_map, List.length_map]
      rfl
    rw [hlength]
    exact h
  parent := by
    intro id hpos hlt
    rw [records, List.length_map] at hlt
    have hl : t.locations[id] ∈ t.locations := List.getElem_mem hlt
    have hid := h.id_of_getElem? (List.getElem?_eq_getElem hlt)
    cases habove : t.locations[id].above with
    | nil =>
      -- only the root has nothing around it
      have hlast := (h.climb_eq hl (Nat.le_refl _)).2
      rw [Location.selfAndAncestors, Location.ancestors, habove] at hlast
      exact absurd (hid.symm.trans (Option.some.inj hlast)) (Nat.ne_of_gt hpos)
    | cons v above =>
      obtain ⟨hv, hchild⟩ := parent_mem_locations hl habove
      have hparent := h.parentOf?_eq hl
      rw [habove, hid] at hparent
      refine ⟨v.id, ?_, hparent, fun q => ?_⟩
      · rw [← hid]
        exact h.lt_of_mem_children hv hchild
      · rw [← h.count_childrenOf hl habove q, hid]
  climb := fun l hl k hk => h.climb_eq hl hk

end Tree

namespace Builder

theorem inOrder_build (source : List Char) (steps : List Step) : (build source steps).InOrder := by
  have h := ((Register.shows_new source).foldl_apply steps).ids_eq
  have hids := (ids_toTree (steps.foldl apply (new source))).trans h
  have hlength := congrArg List.length hids
  rw [List.length_map, List.length_range] at hlength
  rw [Tree.InOrder, build, hids, hlength]

/-- Reading a text is building its tree by steps. -/
theorem exists_steps_read (cs : List Char) : ∃ steps, Tree.read cs = build cs steps := by
  suffices ∃ steps, reading cs = List.foldl apply (new cs) steps by
    obtain ⟨steps, hsteps⟩ := this
    exact ⟨steps, congrArg toTree hsteps⟩
  refine reading_induction (P := fun _ b => ∃ steps, b = List.foldl apply (new cs) steps)
    ⟨[], rfl⟩ ?_
  intro b start l b' hb _ _ h
  -- one more step after those that led here
  have hstep : ∀ {c : Builder} (step : Step), (∃ steps, c = List.foldl apply (new cs) steps) →
      ∃ steps, c.apply step = List.foldl apply (new cs) steps := by
    rintro c step ⟨steps, rfl⟩
    exact ⟨steps ++ [step], by rw [List.foldl_append]; rfl⟩
  exact h.keeps (P := fun c => ∃ steps, c = List.foldl apply (new cs) steps)
    (fun _ kind start hc => hstep (.start kind start) hc)
    (fun _ kind span hc => hstep (.token kind span) hc) (fun _ stop hc => hstep (.finish stop) hc) hb

theorem inOrder_read (cs : List Char) : (Tree.read cs).InOrder := by
  obtain ⟨steps, hsteps⟩ := exists_steps_read cs
  rw [hsteps]
  exact inOrder_build cs steps

/-- Any steps over any source build a tree whose nodes are numbered in the order of
    their creation, which is tree order, from 0 for the root on. A register that
    takes the same steps has one record for each node, of the kind that the step gave;
    each node but the root is recorded as a child once, for its recorded parent, which
    has a smaller number, so that the recorded parents of every node lead to the root. -/
theorem numbered_build (source : List Char) (steps : List Step) :
    (build source steps).Numbered (Register.build source steps) ∧
      (build source steps).nodes.map (·.kind) = .root :: steps.filterMap (·.creates?) := by
  have hrecords := Register.records_build source steps
  refine ⟨hrecords ▸ (inOrder_build source steps).numbered, ?_⟩
  rw [← Register.map_kind_build source steps, ← hrecords, Tree.records, Tree.nodes,
    ← Node.map_node_locations [] (build source steps).root, List.map_map, List.map_map]
  rfl

end Builder

end Typeahead
