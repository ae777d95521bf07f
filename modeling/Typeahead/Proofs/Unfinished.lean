import Typeahead.Proofs.Outside

/-!
# Names that a word hides

A list shows the same names to a cursor inside a blank, before and after a word is
put there, as long as no clause waits for the word. A clause that does is unfinished:
the forms before the place make it, and the word, a form, may go on with it.

* `Place.exists_later`: the active forms around a place, before it and after it;
* `Twins.alike_node`: the clauses of the vector that changes;
* `Twins.alike_rule`: the clauses of a list further outside;
* `Twins.bindingsAt_node`: the bindings of a list that changes are the same.
-/

namespace Typeahead

/-! ### The forms around a place -/

/-- The active forms among siblings that follow others of the kinds `before`. -/
def activeAmong (before : List Kind) (ns : List Node) : List Node :=
  ((judgeForms before ns).filter (!·.2)).map Prod.fst

theorem Node.activeForms_eq_activeAmong (n : Node) : n.activeForms = activeAmong [] n.children :=
  rfl

theorem activeAmong_subset (before : List Kind) (ns : List Node) : activeAmong before ns ⊆ ns :=
  ((List.filter_sublist.map Prod.fst).trans (map_fst_judgeForms_sublist before ns)).subset

theorem judgeForms_append (before : List Kind) (ns ms : List Node) :
    judgeForms before (ns ++ ms) =
      judgeForms before ns ++ judgeForms ((ns.map (·.kind)).reverse ++ before) ms := by
  induction ns generalizing before with
  | nil => rfl
  | cons n ns ih =>
    rw [List.cons_append, judgeForms, judgeForms, ih, List.map_cons, List.reverse_cons,
      List.append_assoc, List.singleton_append]
    split <;> rfl

theorem activeAmong_append (before : List Kind) (ns ms : List Node) :
    activeAmong before (ns ++ ms) =
      activeAmong before ns ++ activeAmong ((ns.map (·.kind)).reverse ++ before) ms := by
  rw [activeAmong, judgeForms_append, List.filter_append, List.map_append]
  rfl

/-- Blanks are no forms. -/
theorem activeAmong_eq_nil {ns : List Node} (h : ∀ n ∈ ns, n.kind = .whitespace)
    (before : List Kind) : activeAmong before ns = [] := by
  have hnone : judgeForms before ns = [] := by
    induction ns generalizing before with
    | nil => rfl
    | cons n ns ih =>
      have hform : ¬ n.kind.isForm = true := by rw [h n List.mem_cons_self]; decide
      rw [judgeForms, if_neg hform, ih fun m hm => h m (List.mem_cons_of_mem _ hm)]
  rw [activeAmong, hnone]
  rfl

/-- What starts at an offset or after it comes late. -/
theorem late_of_le_start {cs : List Char} (hcs : cs ≠ []) {ns : List Node} {offset : Nat}
    (h : ∀ n ∈ ns, n ∈ (Tree.read cs).nodes ∧ offset ≤ n.span.start) : Late offset ns := by
  intro n hn
  obtain ⟨hnode, hstart⟩ := h n hn
  have hinside : ∀ m ∈ n.preorder, offset < m.span.stop := by
    intro m hm
    have hspan := Tree.span_within hcs hnode hm
    have hlt := Tree.lt_stop_read hcs m (Node.preorder_subset_of_mem _ hnode hm)
    omega
  exact ⟨hinside n n.mem_preorder_self, fun _ => hinside⟩

namespace Place

variable {cs : List Char} {offset : Nat} (w : Place cs offset)

/-- The active forms before the place. -/
def done : List Node := activeAmong [] w.pre

theorem mem_children_of_mem_done {n : Node} (hn : n ∈ w.done) :
    n ∈ w.node.children ∧ n.span.stop ≤ offset := by
  obtain ⟨c, post, hchildren, -⟩ := w.exists_child
  have hpre := activeAmong_subset _ _ hn
  rw [hchildren]
  exact ⟨List.mem_append_left _ hpre, w.stop_pre n hpre⟩

/-- The active forms around a place: those before it, and late ones. -/
theorem exists_later (hkind : w.token.node.kind ≠ .vector) :
    ∃ later, w.node.activeForms = w.done ++ later ∧ Late offset later := by
  obtain ⟨c, post, hchildren, hc, -, -, hstop⟩ := w.exists_child
  have hnode := Tree.mem_nodes_of_mem_locations w.node_mem
  have hmem : ∀ d ∈ w.node.children, d ∈ (Tree.read cs).nodes := fun d hd =>
    Tree.mem_nodes_of_mem_children hnode hd
  have htiles := Tree.filled_read cs w.node hnode (by simp [hchildren])
  rw [hchildren] at htiles hmem
  have haround := htiles.around fun d hd =>
    Nat.le_of_lt (Tree.lt_stop_read w.ne_nil d (hmem d hd))
  refine ⟨activeAmong ((w.pre.map (·.kind)).reverse ++ []) (c :: post), ?_, fun n hn => ?_⟩
  · rw [Node.activeForms_eq_activeAmong, hchildren, activeAmong_append]
    rfl
  rcases List.mem_cons.1 (activeAmong_subset _ _ hn) with rfl | hn
  · -- neither the token nor a quoted form is a vector
    refine ⟨hstop, fun hvector => ?_⟩
    rcases hc with rfl | hc
    · exact absurd hvector hkind
    · rw [w.kind_path _ hc] at hvector
      cases hvector
  · have hpost : Late offset post := late_of_le_start w.ne_nil fun m hm =>
      ⟨hmem m (by simp [hm]), Nat.le_trans (Nat.le_of_lt hstop) (haround.2.2.2 m hm)⟩
    exact hpost n hn

/-- A token is directly inside the innermost node around it that is no quoted form,
    and no other. -/
theorem isDirectlyIn_eq (v : Node) : w.token.isDirectlyIn v = (w.node.id == v.id) := by
  have hfind : w.token.above.find? (·.kind != .quoted) = some w.node := by
    have hpath : w.path.find? (·.kind != .quoted) = none := by
      rw [List.find?_eq_none]
      intro q hq
      simp [w.kind_path q hq]
    rw [w.above_eq, List.find?_append, hpath, Option.none_or,
      List.find?_cons_of_pos (by simp [w.kind_ne])]
  rw [Location.isDirectlyIn, hfind, Option.any_some]

theorem unfinishedIn_eq_nil {v : Node} (h : v.id ≠ w.node.id) (s : Style) :
    (Tree.read cs).unfinishedIn w.token offset s v = [] := by
  have hid : (w.node.id == v.id) = false := beq_eq_false_iff_ne.2 h.symm
  rw [Tree.unfinishedIn, w.isDirectlyIn_eq, hid, Bool.false_and, if_neg Bool.false_ne_true]

/-- The clauses of the vector around the place show the names of finished clauses,
    and of unfinished ones if no form comes after the place. -/
theorem seen_clauses (hkind : w.token.node.kind ≠ .vector) {s : Style} {finished : List Clause}
    (h : s.Finishes (Tree.read cs) w.done finished) :
    (Tree.read cs).seen w.token offset (s.clauses (Tree.read cs) w.node.activeForms) =
      (Tree.read cs).seen w.token offset finished ++
        (Tree.read cs).unfinishedIn w.token offset s w.node := by
  obtain ⟨later, happ, hlater⟩ := w.exists_later hkind
  have hdone : w.done.all (·.span.stop ≤ offset) = true :=
    List.all_eq_true.2 fun n hn => decide_eq_true (w.mem_children_of_mem_done hn).2
  rw [Tree.unfinishedIn, w.isDirectlyIn_eq, beq_self_eq_true, Bool.true_and, happ, List.all_append,
    hdone, Bool.true_and]
  by_cases hne : later = []
  · -- no form comes after the place
    rw [hne, List.append_nil, h.1, List.all_nil, if_pos rfl, Tree.seen_append]
  · have hlast : ¬ later.all (·.span.stop ≤ offset) = true := by
      intro hall
      obtain ⟨n, hn⟩ := List.exists_mem_of_ne_nil later hne
      have hle := of_decide_eq_true (List.all_eq_true.1 hall n hn)
      exact absurd (hlater n hn).1 (Nat.not_lt.2 hle)
    rw [h.2 w.token hne hlater, if_neg hlast, List.append_nil]

/-- A list around the place shows the names that its forms before the place
    introduce. -/
theorem seen_rule (hkind : w.token.node.kind ≠ .vector) (r : Rule) :
    (Tree.read cs).seen w.token offset (r.clauses (Tree.read cs) w.node.activeForms) =
      (Tree.read cs).seen w.token offset (r.clauses (Tree.read cs) w.done) := by
  obtain ⟨later, happ, hlater⟩ := w.exists_later hkind
  rw [happ]
  rcases r.naming.slot.find_append w.done later with hfind | ⟨hnone, hfind⟩
  · rw [Rule.clauses, Rule.clauses, hfind]
  · -- the form in the slot is late, or there is none
    have hnil : (Tree.read cs).seen w.token offset
        (r.clauses (Tree.read cs) (w.done ++ later)) = [] :=
      r.seen_clauses_eq_nil fun q hq m hm => List.mem_singleton.1 hm ▸ hlater q (hfind q hq)
    rw [hnil, Rule.clauses, hnone]
    rfl

/-- No child of the node is taken for it. -/
theorem id_ne_of_mem_children {c : Node} (hc : c ∈ w.node.children) : c.id ≠ w.node.id := by
  intro hid
  have hmem := Tree.children_subset_locations w.node_mem (List.mem_map.2 ⟨c, hc, rfl⟩)
  have hlength := congrArg (·.above.length) (Tree.location_eq_of_id_eq hmem w.node_mem hid)
  simp only [List.length_cons] at hlength
  omega

end Place

namespace Tree

variable {t : Tree} {cursor : Location} {offset : Nat}

theorem unfinishedAmong_append (vs ws : List (Style × Node)) :
    t.unfinishedAmong cursor offset (vs ++ ws) =
      t.unfinishedAmong cursor offset vs ++ t.unfinishedAmong cursor offset ws :=
  List.flatMap_append

theorem unfinishedAmong_eq_nil {vs : List (Style × Node)}
    (h : ∀ x ∈ vs, t.unfinishedIn cursor offset x.1 x.2 = []) :
    t.unfinishedAmong cursor offset vs = [] :=
  List.flatMap_eq_nil_iff.2 h

theorem mem_of_mem_letVector {k v w : Node} (h : w ∈ t.letVector k v) :
    w = v ∧ v.kind = .vector := by
  rw [letVector] at h
  split at h
  · next hv => exact ⟨List.mem_singleton.1 h, hv.1⟩
  · exact absurd h List.not_mem_nil

theorem mem_of_mem_letVectors {ns : List Node} {w : Node} (h : w ∈ t.letVectors ns) :
    w ∈ ns ∧ w.kind = .vector := by
  fun_induction letVectors t ns with
  | case1 => exact absurd h List.not_mem_nil
  | case2 => exact absurd h List.not_mem_nil
  | case3 p v hp =>
    obtain ⟨rfl, hkind⟩ := mem_of_mem_letVector h
    exact ⟨by simp, hkind⟩
  | case4 p v hp => exact absurd h List.not_mem_nil
  | case5 p v e ns hp ih =>
    rcases List.mem_append.1 h with h | h
    · obtain ⟨rfl, hkind⟩ := mem_of_mem_letVector h
      exact ⟨by simp, hkind⟩
    · exact ⟨by simp [List.mem_cons.1 (ih h).1], (ih h).2⟩
  | case6 p v e ns hp ih => exact ⟨by simp [(ih h).1], (ih h).2⟩

end Tree

namespace Twins

variable {u p v : List Char} (tw : Twins u p v)

/-! ### Clauses in the two trees -/

/-- The clauses `cs` show the same names as the clauses `cs'` of the tree with the
    word, apart from what is unfinished in the vectors `vs` and `vs'`. -/
def Alike (cs : List Clause) (vs : List (Style × Node)) (cs' : List Clause)
    (vs' : List (Style × Node)) : Prop :=
  ∃ names, (Tree.read (u ++ v)).seen tw.bare.token (byteLength u) cs =
      names ++ (Tree.read (u ++ v)).unfinishedAmong tw.bare.token (byteLength u) vs ∧
    (Tree.read (u ++ (p ++ v))).seen tw.full.token (byteLength u) cs' =
      names ++ (Tree.read (u ++ (p ++ v))).unfinishedAmong tw.full.token (byteLength u) vs'

/-- Nothing is unfinished in either of the vectors. -/
def Finished (vs vs' : List (Style × Node)) : Prop :=
  (Tree.read (u ++ v)).unfinishedAmong tw.bare.token (byteLength u) vs = [] ∧
    (Tree.read (u ++ (p ++ v))).unfinishedAmong tw.full.token (byteLength u) vs' = []

variable {tw}

theorem Finished.alike {vs vs' : List (Style × Node)} (h : tw.Finished vs vs')
    {cs cs' : List Clause}
    (heq : (Tree.read (u ++ (p ++ v))).seen tw.full.token (byteLength u) cs' =
      (Tree.read (u ++ v)).seen tw.bare.token (byteLength u) cs) : tw.Alike cs vs cs' vs' :=
  ⟨_, by rw [h.1, List.append_nil], by rw [h.2, List.append_nil, heq]⟩

theorem Finished.alike_nil {vs vs' : List (Style × Node)} (h : tw.Finished vs vs') :
    tw.Alike [] vs [] vs' :=
  h.alike rfl

namespace Alike

variable {cs cs' ds ds' : List Clause} {vs vs' ws ws' : List (Style × Node)}

theorem seen_eq (h : tw.Alike cs vs cs' vs') (hvs : tw.Finished vs vs') :
    (Tree.read (u ++ (p ++ v))).seen tw.full.token (byteLength u) cs' =
      (Tree.read (u ++ v)).seen tw.bare.token (byteLength u) cs := by
  obtain ⟨names, hbare, hfull⟩ := h
  rw [hbare, hfull, hvs.1, hvs.2]

/-- Unfinished clauses come last. -/
theorem append (h : tw.Alike cs vs cs' vs') (hds : tw.Alike ds ws ds' ws')
    (hlast : tw.Finished vs vs') : tw.Alike (cs ++ ds) (vs ++ ws) (cs' ++ ds') (vs' ++ ws') := by
  obtain ⟨names, hbare, hfull⟩ := hds
  refine ⟨(Tree.read (u ++ v)).seen tw.bare.token (byteLength u) cs ++ names, ?_, ?_⟩
  · rw [Tree.seen_append, hbare, Tree.unfinishedAmong_append, hlast.1, List.nil_append,
      List.append_assoc]
  · rw [Tree.seen_append, hfull, h.seen_eq hlast, Tree.unfinishedAmong_append, hlast.2,
      List.nil_append, List.append_assoc]

/-- Where nothing is seen, nothing is unfinished either. -/
theorem append_of_nil (h : tw.Alike cs vs cs' vs') (hds : tw.Alike ds ws ds' ws')
    (hnil : (Tree.read (u ++ v)).seen tw.bare.token (byteLength u) ds = [] ∧
      (Tree.read (u ++ (p ++ v))).seen tw.full.token (byteLength u) ds' = []) :
    tw.Alike (cs ++ ds) (vs ++ ws) (cs' ++ ds') (vs' ++ ws') := by
  obtain ⟨names, hbare, hfull⟩ := h
  obtain ⟨rest, hbareRest, hfullRest⟩ := hds
  rw [hnil.1, eq_comm, List.append_eq_nil_iff] at hbareRest
  rw [hnil.2, eq_comm, List.append_eq_nil_iff] at hfullRest
  refine ⟨names, ?_, ?_⟩
  · rw [Tree.seen_append, hnil.1, Tree.unfinishedAmong_append, hbareRest.2, hbare, List.append_nil,
      List.append_nil]
  · rw [Tree.seen_append, hnil.2, Tree.unfinishedAmong_append, hfullRest.2, hfull, List.append_nil,
      List.append_nil]

end Alike

variable (tw)

theorem kind_bare_ne : tw.bare.token.node.kind ≠ .vector := by
  rw [tw.kind_bare]
  decide

theorem kind_full_ne : tw.full.token.node.kind ≠ .vector := by
  intro hkind
  have hword := isWord_atomKind p
  rw [← tw.kind_full, hkind] at hword
  cases hword

/-- The word leaves the forms before it alone. -/
theorem done_eq : tw.full.done = tw.bare.done := by
  obtain ⟨blanks, happ, hkinds⟩ := tw.exists_blanks
  rw [Place.done, Place.done, happ, activeAmong_append, activeAmong_eq_nil hkinds, List.append_nil]

/-- What is inside a form before the place is a node of both trees. -/
theorem mem_nodes_of_mem_done {n : Node} (hn : n ∈ Node.preorderAll tw.bare.done) :
    n ∈ (Tree.read (u ++ v)).nodes ∧ n ∈ (Tree.read (u ++ (p ++ v))).nodes ∧
      n.span.stop ≤ byteLength u := by
  obtain ⟨f, hf, hn⟩ := Node.mem_preorderAll.1 hn
  have hbare := tw.bare.mem_children_of_mem_done hf
  have hfull := tw.full.mem_children_of_mem_done (tw.done_eq ▸ hf)
  have hmem := Tree.mem_nodes_of_mem_children
    (Tree.mem_nodes_of_mem_locations tw.bare.node_mem) hbare.1
  have hmem' := Tree.mem_nodes_of_mem_children
    (Tree.mem_nodes_of_mem_locations tw.full.node_mem) hfull.1
  exact ⟨Node.preorder_subset_of_mem _ hmem hn, Node.preorder_subset_of_mem _ hmem' hn,
    Nat.le_trans (Tree.span_within tw.bare.ne_nil hmem hn).2 hbare.2⟩

/-- Clauses made of forms before the place show the same names. -/
theorem seen_of_isAmong_done {cs : List Clause} (h : ∀ c ∈ cs, c.IsAmong tw.bare.done) :
    (Tree.read (u ++ (p ++ v))).seen tw.full.token (byteLength u) cs =
      (Tree.read (u ++ v)).seen tw.bare.token (byteLength u) cs :=
  tw.seen_of_stop_le fun c hc => tw.mem_nodes_of_mem_done (h c hc).pattern_mem

/-- The clauses of forms before the place are the same in both trees. -/
theorem clauses_of_stop_le (s : Style) {fs : List Node}
    (h : ∀ f ∈ fs, f.span.stop ≤ byteLength u) :
    s.clauses (Tree.read (u ++ (p ++ v))) fs = s.clauses (Tree.read (u ++ v)) fs :=
  s.clauses_congr fun f hf => text_of_stop_le (h f hf)

/-- The clauses of the vector that changes differ where they are unfinished. -/
theorem alike_node (s : Style) :
    tw.Alike (s.clauses (Tree.read (u ++ v)) tw.bare.node.activeForms) [(s, tw.bare.node)]
      (s.clauses (Tree.read (u ++ (p ++ v))) tw.full.node.activeForms) [(s, tw.full.node)] := by
  obtain ⟨finished, hbare⟩ := s.exists_finishes (Tree.read (u ++ v)) tw.bare.done
  obtain ⟨finished', hfull⟩ := s.exists_finishes (Tree.read (u ++ (p ++ v))) tw.bare.done
  -- the finished clauses are made of the same forms
  have hsame := clauses_of_stop_le (p := p) (v := v) s fun f hf =>
    (tw.bare.mem_children_of_mem_done hf).2
  rw [hbare.1, hfull.1] at hsame
  obtain rfl := List.append_cancel_right hsame
  have hmade : ∀ c ∈ finished', c.IsAmong tw.bare.done := by
    intro c hc
    refine s.isAmong_of_mem_clauses (t := Tree.read (u ++ v)) ?_
    rw [hbare.1]
    exact List.mem_append_left _ hc
  refine ⟨(Tree.read (u ++ v)).seen tw.bare.token (byteLength u) finished', ?_, ?_⟩
  · rw [Tree.unfinishedAmong, List.flatMap_singleton, tw.bare.seen_clauses tw.kind_bare_ne hbare]
  · rw [Tree.unfinishedAmong, List.flatMap_singleton,
      tw.full.seen_clauses tw.kind_full_ne (tw.done_eq.symm ▸ hfull), tw.seen_of_isAmong_done hmade]

/-! ### Vectors outside -/

variable {tw}

/-- Nodes outside are not taken for the one that changes. -/
theorem Outside.id_move_ne {n : Node} (h : tw.Outside n) (hid : n.id ≠ tw.bare.node.id) :
    (n.move tw.gap).id ≠ tw.full.node.id := by
  intro heq
  have hnode : n.move tw.gap = tw.full.node :=
    Tree.eq_of_id_eq h.move_mem (Tree.mem_nodes_of_mem_locations tw.full.node_mem) heq
  rcases h.span_cases with hstop | hstart | hmem
  · have hlt := tw.full.lt_stop_node
    rw [← hnode, Node.move_of_stop_le (tw.offset_eq ▸ hstop)] at hlt
    exact absurd hstop (Nat.not_le.2 hlt)
  · have hle := tw.start_le_of_mem List.mem_cons_self
    have hsame : tw.full.node.span.start = tw.bare.node.span.start :=
      congrArg Heading.start tw.heading_eq
    rw [← hsame, ← hnode, h.span_move hstart] at hle
    exact absurd (Nat.le_trans (Nat.le_add_right _ _) hle) (Nat.not_le.2 hstart)
  · have hfull : tw.full.node.id = tw.bare.node.id := congrArg Heading.id tw.heading_eq
    rw [tw.id_move hmem, hfull] at heq
    exact hid heq

variable (tw)

/-- In vectors other than the one that changes, nothing is unfinished. -/
theorem finished_of_id_ne {vs vs' : List (Style × Node)} (h : ∀ x ∈ vs, x.2.id ≠ tw.bare.node.id)
    (h' : ∀ x ∈ vs', x.2.id ≠ tw.full.node.id) : tw.Finished vs vs' :=
  ⟨Tree.unfinishedAmong_eq_nil fun x hx => tw.bare.unfinishedIn_eq_nil (h x hx) x.1,
    Tree.unfinishedAmong_eq_nil fun x hx => tw.full.unfinishedIn_eq_nil (h' x hx) x.1⟩

variable {tw}

theorem Outside.finished {n : Node} (h : tw.Outside n) (hid : n.id ≠ tw.bare.node.id) (s : Style) :
    tw.Finished [(s, n)] [(s, n.move tw.gap)] := by
  refine tw.finished_of_id_ne (fun x hx => ?_) fun x hx => ?_
  · rw [List.mem_singleton.1 hx]
    exact hid
  · rw [List.mem_singleton.1 hx]
    exact h.id_move_ne hid

variable (tw)

theorem seen_ofPairs_move {fs : List Node} (h : ∀ f ∈ fs, tw.Outside f) :
    (Tree.read (u ++ (p ++ v))).seen tw.full.token (byteLength u)
        (Clause.ofPairs (fs.map (·.move tw.gap))) =
      (Tree.read (u ++ v)).seen tw.bare.token (byteLength u) (Clause.ofPairs fs) := by
  fun_induction Clause.ofPairs fs with
  | case1 => rfl
  | case2 q =>
    have hq := h q List.mem_cons_self
    exact tw.seen_move hq (tw.stop_move hq.mem_nodes)
  | case3 q w fs ih =>
    have hw := h w (by simp)
    rw [List.map_cons, List.map_cons, Clause.ofPairs, Tree.seen_cons,
      Tree.seen_cons (t := Tree.read (u ++ v)), ih fun f hf => h f (by simp [hf]),
      tw.seen_move (h q List.mem_cons_self) (tw.stop_move hw.mem_nodes)]

theorem seen_ofEach_move {fs : List Node} (h : ∀ f ∈ fs, tw.Outside f) :
    (Tree.read (u ++ (p ++ v))).seen tw.full.token (byteLength u)
        (Clause.ofEach (fs.map (·.move tw.gap))) =
      (Tree.read (u ++ v)).seen tw.bare.token (byteLength u) (Clause.ofEach fs) := by
  rw [Clause.ofEach, Clause.ofEach, List.getLast?_map]
  cases hlast : fs.getLast? with
  | none => rfl
  | some coll =>
    have hcoll := tw.stop_move (h coll (List.mem_of_getLast? hlast)).mem_nodes
    have hdrop : ∀ f ∈ fs.dropLast, tw.Outside f := fun f hf => h f (List.dropLast_subset _ hf)
    rw [Option.map_some]
    dsimp only
    rw [← List.map_dropLast, List.map_map]
    generalize fs.dropLast = gs at hdrop
    induction gs with
    | nil => rfl
    | cons g gs ih =>
      rw [List.map_cons, List.map_cons, Tree.seen_cons, Tree.seen_cons (t := Tree.read (u ++ v)),
        ih fun f hf => hdrop f (List.mem_cons_of_mem _ hf)]
      exact congrArg (· ++ _) (tw.seen_move (hdrop g List.mem_cons_self) hcoll)

/-- Forms outside that make clauses in turn show the same names. -/
theorem seen_clauses_move {s : Style} (hs : s ≠ .comprehension) {fs : List Node}
    (h : ∀ f ∈ fs, tw.Outside f) :
    (Tree.read (u ++ (p ++ v))).seen tw.full.token (byteLength u)
        (s.clauses (Tree.read (u ++ (p ++ v))) (fs.map (·.move tw.gap))) =
      (Tree.read (u ++ v)).seen tw.bare.token (byteLength u)
        (s.clauses (Tree.read (u ++ v)) fs) := by
  cases s with
  | pairs => exact tw.seen_ofPairs_move h
  | each => exact tw.seen_ofEach_move h
  | comprehension => exact absurd rfl hs
  | firstPair =>
    match fs with
    | [] => rfl
    | [q] => exact tw.seen_ofPairs_move h
    | q :: w :: fs =>
      have hw := h w (by simp)
      exact tw.seen_move (h q List.mem_cons_self) (tw.stop_move hw.mem_nodes)

/-- The clauses of a vector outside differ at most where they are unfinished. -/
theorem alike_vector {s : Style} (hs : s ≠ .comprehension) {n : Node} (hn : tw.Outside n) :
    tw.Alike (s.clauses (Tree.read (u ++ v)) n.activeForms) [(s, n)]
      (s.clauses (Tree.read (u ++ (p ++ v))) (n.move tw.gap).activeForms) [(s, n.move tw.gap)] := by
  by_cases hid : n.id = tw.bare.node.id
  · obtain rfl := tw.eq_node hn.mem_nodes hid
    rw [tw.move_node]
    exact tw.alike_node s
  · refine (hn.finished hid s).alike ?_
    rw [tw.activeForms_move hn.mem_nodes hid]
    exact tw.seen_clauses_move hs fun f hf =>
      hn.child hid (n.activeForms_subset_children hf)

/-! ### Comprehensions -/

/-- The name that a `:reduce` introduces is seen in both trees or in neither: inside
    the vector it is not. -/
theorem seen_reduce_move {w : Node} (hw : tw.Outside w) :
    (Tree.read (u ++ (p ++ v))).seen tw.full.token (byteLength u)
        ((w.move tw.gap).activeForms.head?.map fun acc =>
          (⟨acc, (w.move tw.gap).span.stop⟩ : Clause)).toList =
      (Tree.read (u ++ v)).seen tw.bare.token (byteLength u)
        (w.activeForms.head?.map fun acc => (⟨acc, w.span.stop⟩ : Clause)).toList := by
  by_cases hid : w.id = tw.bare.node.id
  · -- the vector ends after the place
    obtain rfl := tw.eq_node hw.mem_nodes hid
    have hfrom : ∀ {n : Node}, byteLength u < n.span.stop →
        ∀ c ∈ (n.activeForms.head?.map fun acc => (⟨acc, n.span.stop⟩ : Clause)).toList,
          byteLength u < c.visibleFrom := by
      intro n hn c hc
      obtain ⟨acc, -, rfl⟩ := Option.map_eq_some_iff.1 (Option.mem_toList.1 hc)
      exact hn
    rw [tw.move_node, Tree.seen_eq_nil (hfrom tw.full.lt_stop_node),
      Tree.seen_eq_nil (hfrom tw.bare.lt_stop_node)]
  · rw [tw.activeForms_move hw.mem_nodes hid, List.head?_map]
    cases hfirst : w.activeForms.head? with
    | none => rfl
    | some acc =>
      have hacc : tw.Outside acc :=
        hw.child hid (w.activeForms_subset_children (List.mem_of_mem_head? hfirst))
      exact tw.seen_move hacc (tw.stop_move hw.mem_nodes)

/-- Modifiers differ at most where the pairs of a `:let` are unfinished. -/
theorem alike_modifierClauses {k w : Node} (hk : tw.Outside k) (hkey : k.kind = .keyword)
    (hw : tw.Outside w) :
    tw.Alike ((Tree.read (u ++ v)).modifierClauses k w)
      (((Tree.read (u ++ v)).letVector k w).map (Style.pairs, ·))
      ((Tree.read (u ++ (p ++ v))).modifierClauses (k.move tw.gap) (w.move tw.gap))
      (((Tree.read (u ++ (p ++ v))).letVector (k.move tw.gap) (w.move tw.gap)).map
        (Style.pairs, ·)) := by
  have htext := hk.text_move (by rw [hkey]; rfl)
  rw [Tree.modifierClauses, Tree.modifierClauses, Tree.letVector, Tree.letVector, htext,
    tw.kind_move hw.mem_nodes]
  have hfinished : tw.Finished [] [] := ⟨rfl, rfl⟩
  by_cases hvector : w.kind = .vector
  · simp only [hvector, ne_eq, not_true_eq_false, if_false, true_and]
    by_cases hlet : (Tree.read (u ++ v)).text k = ":let"
    · simp only [if_pos hlet]
      exact tw.alike_vector (s := .pairs) (by decide) hw
    · simp only [if_neg hlet]
      split
      · exact hfinished.alike (tw.seen_reduce_move hw)
      · exact hfinished.alike_nil
  · simp only [hvector, ne_eq, not_false_eq_true, if_true, false_and, if_false]
    exact hfinished.alike_nil

/-- After the vector that changes, nothing is seen. -/
theorem seen_forClauses_late {fs : List Node} (hfs : ∀ f ∈ fs, tw.Outside f)
    (hstart : ∀ f ∈ fs, tw.bare.node.span.stop ≤ f.span.start) :
    (Tree.read (u ++ v)).seen tw.bare.token (byteLength u)
        ((Tree.read (u ++ v)).forClauses fs) = [] ∧
      (Tree.read (u ++ (p ++ v))).seen tw.full.token (byteLength u)
        ((Tree.read (u ++ (p ++ v))).forClauses (fs.map (·.move tw.gap))) = [] := by
  have hlt : ∀ f ∈ fs, byteLength u < f.span.start := fun f hf =>
    Nat.lt_of_lt_of_le tw.bare.lt_stop_node (hstart f hf)
  have hbare : Late (byteLength u) fs := late_of_le_start tw.bare.ne_nil fun f hf =>
    ⟨(hfs f hf).mem_nodes, Nat.le_of_lt (hlt f hf)⟩
  have hfull : Late (byteLength u) (fs.map (·.move tw.gap)) := by
    refine late_of_le_start tw.full.ne_nil fun m hm => ?_
    obtain ⟨f, hf, rfl⟩ := List.mem_map.1 hm
    rw [(hfs f hf).span_move (hlt f hf)]
    exact ⟨(hfs f hf).move_mem, Nat.le_of_lt (Nat.lt_add_right _ (hlt f hf))⟩
  exact ⟨Tree.seen_eq_nil (Tree.lt_of_mem_forClauses hbare),
    Tree.seen_eq_nil (Tree.lt_of_mem_forClauses hfull)⟩

/-- Clauses of a comprehension outside differ at most where the pairs of a `:let` are
    unfinished. -/
theorem alike_forClauses {fs : List Node} (hfs : ∀ f ∈ fs, tw.Outside f)
    (hpairwise : fs.Pairwise fun a b => a.span.stop ≤ b.span.start) :
    tw.Alike ((Tree.read (u ++ v)).forClauses fs)
      (((Tree.read (u ++ v)).letVectors fs).map (Style.pairs, ·))
      ((Tree.read (u ++ (p ++ v))).forClauses (fs.map (·.move tw.gap)))
      (((Tree.read (u ++ (p ++ v))).letVectors (fs.map (·.move tw.gap))).map (Style.pairs, ·)) := by
  have hkind : ∀ f ∈ fs, (f.move tw.gap).kind = f.kind := fun f hf =>
    tw.kind_move (hfs f hf).mem_nodes
  have hnone : tw.Finished [] [] := ⟨rfl, rfl⟩
  fun_induction Tree.forClauses (Tree.read (u ++ v)) fs with
  | case1 =>
    rw [List.map_nil, Tree.forClauses, Tree.letVectors, Tree.letVectors]
    exact hnone.alike rfl
  | case2 q hq =>
    have hq' := (hkind q List.mem_cons_self).trans hq
    rw [List.map_singleton, Tree.forClauses, if_pos hq', Tree.letVectors, Tree.letVectors]
    exact hnone.alike rfl
  | case3 q hq =>
    have hq' := (hkind q List.mem_cons_self).trans_ne hq
    have hout := hfs q List.mem_cons_self
    rw [List.map_singleton, Tree.forClauses, if_neg hq', Tree.letVectors, Tree.letVectors]
    exact hnone.alike (tw.seen_move hout (tw.stop_move hout.mem_nodes))
  | case4 q w hq =>
    have hq' := (hkind q List.mem_cons_self).trans hq
    rw [List.map_cons, List.map_singleton, Tree.forClauses, if_pos hq', Tree.letVectors,
      Tree.letVectors, if_pos hq', if_pos hq]
    exact tw.alike_modifierClauses (hfs q (by simp)) hq (hfs w (by simp))
  | case5 q w hq =>
    have hq' := (hkind q List.mem_cons_self).trans_ne hq
    have hw := hfs w (by simp)
    rw [List.map_cons, List.map_singleton, Tree.forClauses, if_neg hq', Tree.letVectors,
      Tree.letVectors, if_neg hq', if_neg hq]
    exact hnone.alike (tw.seen_move (hfs q (by simp)) (tw.stop_move hw.mem_nodes))
  | case6 q w e fs hq ih =>
    have hq' := (hkind q List.mem_cons_self).trans hq
    have hw := hfs w (by simp)
    have hrest : ∀ f ∈ e :: fs, tw.Outside f := fun f hf => hfs f (by simp [List.mem_cons.1 hf])
    have hafter := (List.pairwise_cons.1 hpairwise).2
    have hmodifier := tw.alike_modifierClauses (hfs q (by simp)) hq hw
    have hih := ih hrest (List.pairwise_cons.1 hafter).2 fun f hf =>
      tw.kind_move (hrest f hf).mem_nodes
    rw [List.map_cons] at hih
    rw [List.map_cons, List.map_cons, List.map_cons, Tree.forClauses, if_pos hq', Tree.letVectors,
      Tree.letVectors, if_pos hq', if_pos hq, List.map_append, List.map_append]
    by_cases hid : w.id = tw.bare.node.id
    · -- what follows the vector that changes is out of sight
      obtain rfl := tw.eq_node hw.mem_nodes hid
      exact hmodifier.append_of_nil hih
        (tw.seen_forClauses_late hrest (List.pairwise_cons.1 hafter).1)
    · refine hmodifier.append hih (tw.finished_of_id_ne (fun x hx => ?_) fun x hx => ?_)
      · obtain ⟨m, hm, rfl⟩ := List.mem_map.1 hx
        rw [(Tree.mem_of_mem_letVector hm).1]
        exact hid
      · obtain ⟨m, hm, rfl⟩ := List.mem_map.1 hx
        rw [(Tree.mem_of_mem_letVector hm).1]
        exact hw.id_move_ne hid
  | case7 q w e fs hq ih =>
    -- a pattern, a verb and an expression, all outside
    have hq' := (hkind q List.mem_cons_self).trans_ne hq
    have he := hfs e (by simp)
    have hrest : ∀ f ∈ fs, tw.Outside f := fun f hf => hfs f (by simp [hf])
    have hafter := hpairwise.sublist (List.sublist_append_right [q, w, e] fs)
    rw [List.map_cons, List.map_cons, List.map_cons, Tree.forClauses, if_neg hq', Tree.letVectors,
      Tree.letVectors, if_neg hq', if_neg hq]
    exact (hnone.alike (tw.seen_move (hfs q (by simp)) (tw.stop_move he.mem_nodes))).append
      (ih hrest hafter fun f hf => tw.kind_move (hrest f hf).mem_nodes) hnone

/-- The clauses of a vector outside differ at most where they are unfinished. -/
theorem alike_style (s : Style) {n : Node} (hn : tw.Outside n) :
    tw.Alike (s.clauses (Tree.read (u ++ v)) n.activeForms) (s.vectors (Tree.read (u ++ v)) n)
      (s.clauses (Tree.read (u ++ (p ++ v))) (n.move tw.gap).activeForms)
      (s.vectors (Tree.read (u ++ (p ++ v))) (n.move tw.gap)) := by
  cases s with
  | pairs => exact tw.alike_vector (s := .pairs) (by decide) hn
  | firstPair => exact tw.alike_vector (s := .firstPair) (by decide) hn
  | each => exact tw.alike_vector (s := .each) (by decide) hn
  | comprehension =>
    by_cases hid : n.id = tw.bare.node.id
    · obtain rfl := tw.eq_node hn.mem_nodes hid
      -- the vectors inside the one that changes are others
      have hinside : ∀ {cs : List Char} {offset : Nat} (w : Place cs offset),
          ∀ x ∈ ((Tree.read cs).letVectors w.node.activeForms).map (Style.pairs, ·),
            x.2.id ≠ w.node.id := by
        intro cs offset w x hx
        obtain ⟨m, hm, rfl⟩ := List.mem_map.1 hx
        exact w.id_ne_of_mem_children
          (w.node.activeForms_subset_children (Tree.mem_of_mem_letVectors hm).1)
      rw [tw.move_node]
      have hfinished := tw.finished_of_id_ne (hinside tw.bare) (hinside tw.full)
      have happ := (tw.alike_node .comprehension).append_of_nil hfinished.alike_nil ⟨rfl, rfl⟩
      rwa [List.append_nil, List.append_nil] at happ
    · obtain ⟨above, hmem, -⟩ := id hn
      have hforms := tw.alike_forClauses
        (fun f hf => hn.child hid (n.activeForms_subset_children hf))
        (Tree.pairwise_activeForms tw.bare.ne_nil hmem)
      have hfinished := hn.finished hid .comprehension
      rw [← tw.activeForms_move hn.mem_nodes hid] at hforms
      exact hfinished.alike_nil.append hforms hfinished

/-- The clauses of a list around the one that changes differ at most where they are
    unfinished. -/
theorem alike_rule (r : Rule) {n : Node} (hn : tw.Outside n) (hid : n.id ≠ tw.bare.node.id) :
    tw.Alike (r.clauses (Tree.read (u ++ v)) n.activeForms)
      (r.vectors (Tree.read (u ++ v)) n.activeForms)
      (r.clauses (Tree.read (u ++ (p ++ v))) (n.move tw.gap).activeForms)
      (r.vectors (Tree.read (u ++ (p ++ v))) (n.move tw.gap).activeForms) := by
  have hform : ∀ f ∈ n.activeForms, tw.Outside f := fun f hf =>
    hn.child hid (n.activeForms_subset_children hf)
  rw [Rule.clauses, Rule.clauses, Rule.vectors, Rule.vectors, tw.activeForms_move hn.mem_nodes hid,
    r.naming.slot.find_map fun f hf => tw.kind_move (hform f hf).mem_nodes]
  cases hfind : r.naming.slot.find n.activeForms with
  | none => exact ⟨[], rfl, rfl⟩
  | some q =>
    have hq := hform q (r.naming.slot.mem_of_find hfind)
    cases hnaming : r.naming with
    | pattern slot =>
      have hnone : tw.Finished [] [] := ⟨rfl, rfl⟩
      exact hnone.alike (tw.seen_move hq (tw.stop_move hq.mem_nodes))
    | vector s => exact tw.alike_style s hq

/-! ### The list that changes -/

/-- If the place has forms before it, the list around it has one rule in both trees. -/
theorem rule?_node (hdone : tw.bare.done ≠ []) :
    (Tree.read (u ++ (p ++ v))).rule? ⟨tw.full.node, tw.full.outer⟩ =
      (Tree.read (u ++ v)).rule? ⟨tw.bare.node, tw.bare.outer⟩ := by
  obtain ⟨f, fs, happ⟩ := List.exists_cons_of_ne_nil hdone
  -- the first form is before the place
  have hfirst : ∀ {cs : List Char} {offset : Nat} (w : Place cs offset),
      w.token.node.kind ≠ .vector → w.done = f :: fs → w.node.activeForms.head? = some f := by
    intro cs offset w hkind hw
    obtain ⟨later, hforms, -⟩ := w.exists_later hkind
    rw [hforms, hw]
    rfl
  have hbare := hfirst tw.bare tw.kind_bare_ne happ
  have hfull := hfirst tw.full tw.kind_full_ne (tw.done_eq.trans happ)
  have hstop := (tw.bare.mem_children_of_mem_done (happ ▸ List.mem_cons_self : f ∈ tw.bare.done)).2
  have hhead : (Tree.read (u ++ (p ++ v))).head? tw.full.node =
      (Tree.read (u ++ v)).head? tw.bare.node := by
    rw [Tree.head?, Tree.head?, hbare, hfull]
    simp only [text_of_stop_le hstop]
  have hmove : (⟨tw.full.node, tw.full.outer⟩ : Location) =
      Location.move tw.gap ⟨tw.bare.node, tw.bare.outer⟩ := by
    rw [Location.move, tw.move_node, tw.outer_eq]
  have hfunction := tw.isInFunction_move (l := ⟨tw.bare.node, tw.bare.outer⟩) List.mem_cons_self
  rw [Tree.rule?, Tree.rule?, hmove, hfunction, ← hmove, hbare, hfull, hhead]

/-- The forms before the place introduce the same names by a rule. -/
theorem seen_done (r : Rule) :
    (Tree.read (u ++ (p ++ v))).seen tw.full.token (byteLength u)
        (r.clauses (Tree.read (u ++ (p ++ v))) tw.full.done) =
      (Tree.read (u ++ v)).seen tw.bare.token (byteLength u)
        (r.clauses (Tree.read (u ++ v)) tw.bare.done) := by
  rw [tw.done_eq, Rule.clauses, Rule.clauses]
  cases hfind : r.naming.slot.find tw.bare.done with
  | none => rfl
  | some q =>
    have hq := r.naming.slot.mem_of_find hfind
    simp only [Option.map_some, Option.getD_some]
    cases r.naming with
    | pattern slot =>
      refine tw.seen_of_isAmong_done fun c hc => ?_
      rw [List.mem_singleton.1 hc]
      exact Clause.isAmong_of_mem hq hq
    | vector s =>
      have hinside : ∀ f ∈ q.activeForms, f.span.stop ≤ byteLength u := fun f hf =>
        (tw.mem_nodes_of_mem_done (Node.mem_preorderAll.2
          ⟨q, hq, Node.child_mem_preorder (q.activeForms_subset_children hf)⟩)).2.2
      rw [Naming.clausesOf, Naming.clausesOf, clauses_of_stop_le s hinside]
      exact tw.seen_of_isAmong_done fun c hc => (s.isAmong_of_mem_clauses hc).of_activeForms hq

/-- The list around the place binds the same names in both trees. -/
theorem bindingsAt_node (depth : Nat) :
    (Tree.read (u ++ (p ++ v))).bindingsAt tw.full.token (byteLength u) depth
        ⟨tw.full.node, tw.full.outer⟩ =
      (Tree.read (u ++ v)).bindingsAt tw.bare.token (byteLength u) depth
        ⟨tw.bare.node, tw.bare.outer⟩ := by
  by_cases hdone : tw.bare.done = []
  · -- the lists may have different rules, but nothing to show
    have hclauses : ∀ (t : Tree) (r : Rule), r.clauses t [] = [] := by
      intro t r
      rw [Rule.clauses]
      cases r.naming.slot <;> rfl
    have hnil : ∀ {cs : List Char} {offset : Nat} (w : Place cs offset),
        w.token.node.kind ≠ .vector → w.done = [] →
          (Tree.read cs).bindingsAt w.token offset depth ⟨w.node, w.outer⟩ = [] := by
      intro cs offset w hkind hw
      rw [Tree.bindingsAt_eq]
      cases (Tree.read cs).rule? ⟨w.node, w.outer⟩ with
      | none => rfl
      | some r =>
        rw [Option.map_some, Option.getD_some, w.seen_rule hkind, hw, hclauses]
        rfl
    rw [hnil tw.bare tw.kind_bare_ne hdone, hnil tw.full tw.kind_full_ne (tw.done_eq.trans hdone)]
  · rw [Tree.bindingsAt_eq, Tree.bindingsAt_eq, tw.rule?_node hdone]
    cases (Tree.read (u ++ v)).rule? ⟨tw.bare.node, tw.bare.outer⟩ with
    | none => rfl
    | some r =>
      rw [Option.map_some, Option.map_some, tw.bare.seen_rule tw.kind_bare_ne,
        tw.full.seen_rule tw.kind_full_ne, tw.seen_done r]

end Twins

end Typeahead
