import Typeahead.Proofs.CallClauses
import Typeahead.Proofs.CommentedOut

/-!
# The clause around a cursor

The clause of a namespace declaration that a cursor is in is found by a scan of the text
before it. In the tree, it is the innermost call around the cursor that begins with the
keyword of a clause.

* `Tree.leavesOpen_span`: what the scan leaves open of a node that ends before the cursor;
* `Tree.Scans.step`: the clause that the scan finds in a node up to the cursor, from that
  in the child that leads there;
* `Tree.Scans.run`: the same for all nodes around the cursor;
* `Cursor.slot_namespaceClause`: the two clauses are the same, if the parentheses and the
  quotes of comments pair up and the clauses before the cursor are closed.
-/

namespace Typeahead

/-! ### Passing over a text -/

/-- On its way to the offset, the scan goes from `start` to `stop`. Besides what it had open
    before, it has open then only parentheses after which `P` holds of the clauses. -/
def LeavesOpen (P : Option NsClause → Prop) (cs : List Char) (offset start stop : Nat) : Prop :=
  ∀ stack, ∃ frames, (∀ r ∈ frames, P (clauseName? r)) ∧
    openParens false false stack (slice cs start offset) =
      openParens false false (frames ++ stack) (slice cs stop offset)

namespace LeavesOpen

variable {P : Option NsClause → Prop} {cs : List Char} {offset start mid stop : Nat}

theorem refl : LeavesOpen P cs offset start start := fun _ => ⟨[], by simp, rfl⟩

theorem trans (h : LeavesOpen P cs offset start mid) (h' : LeavesOpen P cs offset mid stop) :
    LeavesOpen P cs offset start stop := by
  intro stack
  obtain ⟨frames, hframes, heq⟩ := h stack
  obtain ⟨frames', hframes', heq'⟩ := h' (frames ++ stack)
  refine ⟨frames' ++ frames, fun r hr => ?_, ?_⟩
  · exact (List.mem_append.1 hr).elim (hframes' r) (hframes r)
  · rw [heq, heq', List.append_assoc]

theorem of_tiles {ns : List Node} (htiles : Tiles start stop ns)
    (h : ∀ n ∈ ns, LeavesOpen P cs offset n.span.start n.span.stop) :
    LeavesOpen P cs offset start stop := by
  induction ns generalizing start with
  | nil => exact (show start = stop from htiles) ▸ refl
  | cons n ns ih =>
    obtain ⟨rfl, hrest⟩ := htiles
    exact (h n List.mem_cons_self).trans (ih hrest fun m hm => h m (List.mem_cons_of_mem _ hm))

end LeavesOpen

namespace Tree

variable {cs : List Char} {n : Node} {above : List Node} {offset : Nat}

/-- The scan passes over what is balanced. -/
theorem leavesOpen_of_balanced (hword : AtWord cs offset)
    (hn : ⟨n, above⟩ ∈ (Tree.read cs).below) (hle : n.span.stop ≤ offset)
    (h : Balanced ((Tree.read cs).chars n)) (P : Option NsClause → Prop) :
    LeavesOpen P cs offset n.span.start n.span.stop := by
  refine fun stack => ⟨[], by simp, ?_⟩
  rw [hword.slice_eq_append hn hle, h]
  rfl

/-- After the first children of a node, the scan has open the parenthesis of the node, if it is
    a call, and what the children leave open. -/
theorem exists_openParens_children (hword : AtWord cs offset)
    (hn : ⟨n, above⟩ ∈ (Tree.read cs).locations) {pre post : List Node}
    (hchildren : n.children = pre ++ post)
    (hpost : ∀ k ∈ post.head?, k.kind ≠ .openDelim ∧ k.kind ≠ .keyword)
    (hstops : ∀ m ∈ pre, m.span.stop ≤ offset)
    (hclose : n.kind.isCall = true → ∀ m ∈ pre, m.kind ≠ .closeDelim) {stop : Nat}
    (htiles : Tiles n.span.start stop pre) {P : Option NsClause → Prop}
    (h : ∀ m ∈ pre, m.kind ≠ .openDelim → m.kind ≠ .closeDelim →
      LeavesOpen P cs offset m.span.start m.span.stop) :
    ∃ own, own.map clauseName? = ([n].filter (·.kind.isCall)).map (Tree.read cs).callClause? ∧
      ∀ stack, ∃ frames, (∀ r ∈ frames, P (clauseName? r)) ∧
        openParens false false stack (slice cs n.span.start offset) =
          openParens false false (frames ++ (own ++ stack)) (slice cs stop offset) := by
  have hnode : n ∈ (Tree.read cs).nodes := mem_nodes_of_mem_locations hn
  have hbelow : ∀ m ∈ pre, ⟨m, n :: above⟩ ∈ (Tree.read cs).below := fun m hm =>
    below_of_mem_children hn (hchildren ▸ List.mem_append_left _ hm)
  by_cases hcall : n.kind.isCall = true
  · obtain ⟨o, rest, a, hopener, ho, htext, ha, hinner⟩ := exists_opener_of_isCall hnode hcall
    rw [hopener] at hchildren
    cases pre with
    | nil =>
      rw [List.nil_append] at hchildren
      exact absurd ho (hpost o (by rw [← hchildren]; rfl)).1
    | cons o' mids =>
      obtain ⟨rfl, rfl⟩ := List.cons.inj hchildren
      obtain ⟨hstart, hmids⟩ := htiles
      have hstop := hstops o List.mem_cons_self
      have hclause := clauseName?_slice hword hn hcall hopener hstop (by
        intro k hk hkeyword
        cases mids with
        | nil => exact absurd hkeyword (hpost k hk).2
        | cons m mids =>
          obtain rfl : m = k := Option.some.inj hk
          exact hstops m (by simp))
      have hopen : LeavesOpen P cs offset o.span.stop stop := .of_tiles hmids fun m hm =>
        h m (List.mem_cons_of_mem _ hm) (hinner m (List.mem_append_left _ hm))
          (hclose hcall m (List.mem_cons_of_mem _ hm))
      refine ⟨[slice cs o.span.stop offset], by simp [hcall, hclause], fun stack => ?_⟩
      rw [← hstart, hword.slice_eq_append (hbelow o List.mem_cons_self) hstop, htext,
        List.append_assoc, Balanced.of_unscanned ha, List.singleton_append, openParens_paren]
      exact hopen _
  · have hcall' := Bool.eq_false_iff.2 hcall
    refine ⟨[], by simp [hcall'], LeavesOpen.of_tiles htiles fun m hm => ?_⟩
    by_cases hdelimiter : m.kind = .openDelim ∨ m.kind = .closeDelim
    · exact leavesOpen_of_balanced hword (hbelow m hm) (hstops m hm) (balanced_delimiter hnode
        hcall' (hchildren ▸ List.mem_append_left _ hm) hdelimiter) P
    · rw [not_or] at hdelimiter
      exact h m hm hdelimiter.1 hdelimiter.2

/-- The children of a call that is cut off are no closing delimiters. -/
theorem kind_ne_closeDelim_of_not_isClosed (hn : n ∈ (Tree.read cs).nodes)
    (hopen : n.isClosed = false) {m : Node} (hm : m ∈ n.children) : m.kind ≠ .closeDelim := by
  rcases List.eq_nil_or_concat n.children with hnil | ⟨pre, z, hconcat⟩
  · rw [hnil] at hm
    exact absurd hm List.not_mem_nil
  rw [List.concat_eq_append] at hconcat
  rw [hconcat] at hm
  rcases List.mem_append.1 hm with hm | hm
  · refine ((orderly_read cs).2 n hn).closeDelim_last m ?_
    rwa [hconcat, List.dropLast_concat]
  · rw [List.mem_singleton.1 hm]
    simpa [Node.isClosed, hconcat] using hopen

/-- What the scan leaves open of a node that no parenthesis closes. -/
theorem leavesOpen_of_not_isClosed (hword : AtWord cs offset)
    (hn : ⟨n, above⟩ ∈ (Tree.read cs).locations) (hne : n.children ≠ [])
    (hstops : ∀ m ∈ n.children, m.span.stop ≤ offset) {P : Option NsClause → Prop}
    (hP : n.kind.isCall = true → n.isClosed = false ∧ P ((Tree.read cs).callClause? n))
    (hchildren : ∀ m ∈ n.children, m.kind ≠ .openDelim → m.kind ≠ .closeDelim →
      LeavesOpen P cs offset m.span.start m.span.stop) :
    LeavesOpen P cs offset n.span.start n.span.stop := by
  have hnode : n ∈ (Tree.read cs).nodes := mem_nodes_of_mem_locations hn
  obtain ⟨own, hown, hscan⟩ := exists_openParens_children hword hn (List.append_nil _).symm
    (by simp) hstops (fun hcall _ => kind_ne_closeDelim_of_not_isClosed hnode (hP hcall).1)
    (filled_read cs n hnode hne) hchildren
  intro stack
  obtain ⟨frames, hframes, heq⟩ := hscan stack
  refine ⟨frames ++ own, fun r hr => ?_, by rw [heq, List.append_assoc]⟩
  rcases List.mem_append.1 hr with hr | hr
  · exact hframes r hr
  · obtain ⟨m, hm, hclause⟩ := List.mem_map.1 (hown ▸ List.mem_map_of_mem hr)
    obtain ⟨hm, hcall⟩ := List.mem_filter.1 hm
    obtain rfl := List.mem_singleton.1 hm
    exact hclause ▸ (hP hcall).2

/-- What the scan leaves open of a call with an end. If the children leave anything open, then
    the end closes that, and the parenthesis of the call stays open. -/
theorem leavesOpen_of_isClosed (hword : AtWord cs offset)
    (hn : ⟨n, above⟩ ∈ (Tree.read cs).locations) (hcall : n.kind.isCall = true)
    (hclosed : n.isClosed = true) (hstops : ∀ m ∈ n.children, m.span.stop ≤ offset)
    {P Q : Option NsClause → Prop} (hQP : ∀ k, Q k → P k)
    (hP : P ((Tree.read cs).callClause? n) ∨ ∀ k, ¬ Q k)
    (hchildren : ∀ m ∈ n.children, m.kind ≠ .openDelim → m.kind ≠ .closeDelim →
      LeavesOpen Q cs offset m.span.start m.span.stop) :
    LeavesOpen P cs offset n.span.start n.span.stop := by
  have hnode : n ∈ (Tree.read cs).nodes := mem_nodes_of_mem_locations hn
  obtain ⟨opener, hopener, -⟩ := Kind.exists_opener?_of_isCall hcall
  obtain ⟨o, mid, z, d, hdelimiters, -, hcloser, hz, -⟩ := exists_delimiters hnode hopener hclosed
  rw [← List.cons_append] at hdelimiters
  have hclose : z.kind = .closeDelim := by
    rw [Node.isClosed, hdelimiters, List.getLast?_concat] at hclosed
    simpa using hclosed
  have hpre : ∀ m ∈ o :: mid, m ∈ n.children := fun m hm =>
    hdelimiters ▸ List.mem_append_left _ hm
  have hzmem : z ∈ n.children := by simp [hdelimiters]
  have htiles := filled_read cs n hnode (List.ne_nil_of_mem hzmem)
  rw [hdelimiters] at htiles
  obtain ⟨_, htiles, rfl, hend⟩ := tiles_append.1 htiles
  obtain ⟨own, hown, hscan⟩ := exists_openParens_children hword hn hdelimiters
    (by simp [hclose]) (fun m hm => hstops m (hpre m hm))
    (fun _ m hm => ((orderly_read cs).2 n hnode).closeDelim_last m
      (by rwa [hdelimiters, List.dropLast_concat])) htiles fun m hm => hchildren m (hpre m hm)
  rw [List.filter_cons_of_pos (by simpa using hcall)] at hown
  obtain ⟨r, _, rfl, hclause, hnil⟩ := List.map_eq_cons_iff.1 hown
  obtain rfl := List.map_eq_nil_iff.1 hnil
  rw [Kind.closer?_of_isCall hcall, Option.some.injEq] at hcloser
  have hslice := hword.slice_eq_append (below_of_mem_children hn hzmem) (hstops z hzmem)
  rw [hz, ← hcloser, show z.span.stop = n.span.stop from hend] at hslice
  intro stack
  obtain ⟨frames, hframes, heq⟩ := hscan stack
  rw [heq, hslice]
  cases frames with
  | nil => exact ⟨[], by simp, rfl⟩
  | cons s frames =>
    have hP := hP.resolve_right fun hnone => hnone _ (hframes s List.mem_cons_self)
    refine ⟨frames ++ [r], fun q hq => ?_, by rw [List.append_assoc]; rfl⟩
    rcases List.mem_append.1 hq with hq | hq
    · exact hQP _ (hframes q (List.mem_cons_of_mem _ hq))
    · rw [List.mem_singleton.1 hq, hclause]
      exact hP

/-- The calls in a node that begin with other clauses than those in `P` are closed, and so
    are all calls in them. -/
def ClosesClauses (t : Tree) (P : Option NsClause → Prop) (n : Node) : Prop :=
  ∀ m ∈ n.preorder, m.kind.isCall = true → P (t.callClause? m) ∨
    ∀ k ∈ m.preorder, k.kind.isCall = true → k.isClosed = true

/-- The comments in a node are balanced. -/
def BalancesComments (t : Tree) (n : Node) : Prop :=
  ∀ m ∈ n.preorder, m.kind = .lineComment → Balanced (t.chars m)

theorem sizeOf_lt_of_mem_children {m : Node} (hm : m ∈ n.children) : sizeOf m < sizeOf n := by
  obtain ⟨id, kind, span, ns⟩ := n
  have hlt := List.sizeOf_lt_of_mem hm
  rw [Node.mk.sizeOf_spec]
  dsimp only at hlt
  omega

/-- What the scan leaves open of a node inside a call that ends before a word. -/
theorem leavesOpen_span (hword : AtWord cs offset) (P : Option NsClause → Prop) (n : Node)
    {above : List Node} (hn : ⟨n, above⟩ ∈ (Tree.read cs).below) (hopen : n.kind ≠ .openDelim)
    (hclose : n.kind ≠ .closeDelim) (hle : n.span.stop ≤ offset)
    (hcomments : (Tree.read cs).BalancesComments n) (hcloses : (Tree.read cs).ClosesClauses P n)
    (habove : ∃ a ∈ above, a.kind.isCall = true) :
    LeavesOpen P cs offset n.span.start n.span.stop := by
  by_cases hnil : n.children = []
  · exact leavesOpen_of_balanced hword hn hle (balanced_token hn hnil hopen hclose
      (Nat.lt_of_le_of_lt hle hword.lt) (hcomments n n.mem_preorder_self) habove) P
  have hloc := mem_locations_of_below hn
  have hnode : n ∈ (Tree.read cs).nodes := mem_nodes_of_mem_locations hloc
  have hinner : ∀ {m k}, m ∈ n.children → k ∈ m.preorder → k ∈ n.preorder :=
    Node.mem_preorder_of_mem_children
  have hstops : ∀ m ∈ n.children, m.span.stop ≤ offset := fun m hm =>
    Nat.le_trans (span_within hword.ne_nil hnode (Node.child_mem_preorder hm)).2 hle
  obtain ⟨a, ha, hcalla⟩ := habove
  have hchildren : ∀ Q, (∀ m ∈ n.children, (Tree.read cs).ClosesClauses Q m) →
      ∀ m ∈ n.children, m.kind ≠ .openDelim → m.kind ≠ .closeDelim →
        LeavesOpen Q cs offset m.span.start m.span.stop := fun Q hQ m hm hopen hclose =>
    leavesOpen_span hword Q m (below_of_mem_children hloc hm) hopen hclose (hstops m hm)
      (fun k hk => hcomments k (hinner hm hk)) (hQ m hm) ⟨a, List.mem_cons_of_mem _ ha, hcalla⟩
  have hchildrenP := hchildren P fun m hm k hk => hcloses k (hinner hm hk)
  by_cases hparen : n.kind.isCall = true ∧ n.isClosed = true
  · obtain ⟨hcall, hclosed⟩ := hparen
    rcases hcloses n n.mem_preorder_self hcall with hP | hall
    · exact leavesOpen_of_isClosed hword hloc hcall hclosed hstops (fun _ => id) (.inl hP)
        hchildrenP
    · -- all calls in it are closed, so the children leave nothing open
      refine leavesOpen_of_isClosed hword hloc hcall hclosed hstops (fun _ => False.elim)
        (.inr fun _ => id) (hchildren _ fun m hm k hk _ => .inr fun j hj => hall j (hinner hm ?_))
      exact Node.preorder_subset_of_mem m hk hj
  · refine leavesOpen_of_not_isClosed hword hloc hnil hstops (fun hcall => ?_) hchildrenP
    have hopen : ¬ n.isClosed = true := fun hclosed => hparen ⟨hcall, hclosed⟩
    refine ⟨Bool.eq_false_iff.2 hopen, ?_⟩
    exact (hcloses n n.mem_preorder_self hcall).resolve_right fun hall =>
      hopen (hall n n.mem_preorder_self hcall)
termination_by sizeOf n
decreasing_by exact sizeOf_lt_of_mem_children hm

/-! ### The nodes around a cursor -/

/-- A clause in the node `n` that ends before the offset is closed, and so are the calls in
    it, unless one of the nodes `path` is a clause that starts after it. -/
def ClausesClosed (t : Tree) (offset : Nat) (path : List Node) (n : Node) : Prop :=
  ∀ m ∈ n.preorder, m.span.stop ≤ offset → m.kind.isCall = true →
    (t.callClause? m).isSome = true →
    (∀ k ∈ path, k.kind.isCall = true → (t.callClause? k).isSome = true →
      k.span.start < m.span.stop) →
    ∀ k ∈ m.preorder, k.kind.isCall = true → k.isClosed = true

/-- In the text of the node at `l` up to the offset, the scan finds the clause `clause?`,
    before those that were open already. -/
structure Scans (cs : List Char) (offset : Nat) (l : Location) (clause? : Option NsClause) :
    Prop where
  mem : l ∈ (Tree.read cs).below
  kind : l.node.kind = .symbol ∨ l.node.kind.isNested = true
  start_le : l.node.span.start ≤ offset
  findSome?_eq : ∀ stack,
    (openParens false false stack (slice cs l.node.span.start offset)).findSome? clauseName? =
      clause?.or (stack.findSome? clauseName?)

namespace Scans

variable {cs : List Char} {offset : Nat} {l : Location} {clause? : Option NsClause}

theorem kind_ne (h : Scans cs offset l clause?) {k : Kind} (hnested : k.isNested = false)
    (hsymbol : k ≠ .symbol) : l.node.kind ≠ k := by
  rintro hk
  rcases h.kind with h | h
  · exact hsymbol (hk.symm.trans h)
  · rw [hk, hnested] at h
    cases h

theorem mem_nodes (h : Scans cs offset l clause?) : l.node ∈ (Tree.read cs).nodes :=
  mem_nodes_of_mem_locations (mem_locations_of_below h.mem)

/-- The step from the node that leads to the cursor to the node around it. -/
theorem step (h : Scans cs offset l clause?) (hword : AtWord cs offset) {p : Node}
    {ps : List Node} (habove : l.above = p :: ps)
    (hnested : p.kind.isNested = true) (hcall : ∃ a ∈ p :: ps, a.kind.isCall = true)
    (hcomment : ∀ m ∈ p.preorder, m.span.stop ≤ offset → m.kind = .lineComment →
      Balanced ((Tree.read cs).chars m))
    (hcloses : ∀ m ∈ p.children, m.span.stop ≤ offset →
      (Tree.read cs).ClosesClauses (fun k => clause? = none → k = none) m) :
    Scans cs offset ⟨p, ps⟩ (clause?.or ((Tree.read cs).clauseAround? [p])) := by
  have hcs := hword.ne_nil
  have hl := mem_locations_of_below h.mem
  obtain ⟨hp, hmem⟩ := parent_mem_locations hl habove
  have hnode := mem_nodes_of_mem_locations hp
  obtain ⟨pre, post, hchildren⟩ := List.append_of_mem hmem
  have hbefore := (siblings_of_children_eq hcs hl habove hchildren).2.1
  have hchild : ∀ m ∈ pre, m ∈ p.children := fun m hm => hchildren ▸ List.mem_append_left _ hm
  have hstops : ∀ m ∈ pre, m.span.stop ≤ offset := fun m hm =>
    Nat.le_trans (hbefore m hm) h.start_le
  have htiles := filled_read cs p hnode (List.ne_nil_of_mem hmem)
  rw [hchildren] at htiles
  obtain ⟨_, hpre, rfl, -⟩ := tiles_append.1 htiles
  have hclose : ∀ m ∈ pre, m.kind ≠ .closeDelim := fun m hm => by
    refine ((orderly_read cs).2 p hnode).closeDelim_last m ?_
    rw [hchildren, List.dropLast_append_of_ne_nil (List.cons_ne_nil _ _)]
    exact List.mem_append_left _ hm
  obtain ⟨own, hown, hscan⟩ := exists_openParens_children hword hp hchildren
    (by simpa using ⟨h.kind_ne rfl (by decide), h.kind_ne rfl (by decide)⟩) hstops
    (fun _ => hclose) hpre fun m hm hopen hclose =>
      leavesOpen_span hword (fun k => clause? = none → k = none) m
        (below_of_mem_children hp (hchild m hm)) hopen hclose (hstops m hm)
        (fun k hk => hcomment k (Node.mem_preorder_of_mem_children (hchild m hm) hk)
          (Nat.le_trans (span_within hcs (mem_nodes_of_mem_children hnode (hchild m hm)) hk).2
            (hstops m hm))) (hcloses m (hchild m hm) (hstops m hm)) hcall
  refine ⟨below_of_kind_ne hp fun hroot => ?_, .inr hnested, ?_, fun stack => ?_⟩
  · rw [show p.kind = .root from hroot] at hnested
    cases hnested
  · exact Nat.le_trans (span_within hcs hnode (Node.child_mem_preorder hmem)).1 h.start_le
  -- if no clause was found yet, then what comes before leaves none open
  obtain ⟨frames, hframes, heq⟩ := hscan stack
  have hself : own.findSome? clauseName? = (Tree.read cs).clauseAround? [p] := by
    have hfind := congrArg (List.findSome? id) hown
    rwa [List.findSome?_map, List.findSome?_map] at hfind
  rw [heq, h.findSome?_eq, List.findSome?_append, List.findSome?_append, hself, Option.or_assoc]
  cases hclause : clause? with
  | some k => rfl
  | none => rw [List.findSome?_eq_none_iff.2 fun r hr => hframes r hr hclause, Option.none_or]

/-- The children that matter are those of a node in which no clause was found. -/
theorem closesClauses_of_mem_children (hcs : cs ≠ []) {path : List Node} {n p m : Node}
    (hcloses : clause? = none → (Tree.read cs).ClausesClosed offset path n)
    (hp : p ∈ (Tree.read cs).nodes) (hwithin : p ∈ n.preorder)
    (hstart : ∀ k ∈ path, k.span.start ≤ p.span.start) (hm : m ∈ p.children)
    (hstop : m.span.stop ≤ offset) :
    (Tree.read cs).ClosesClauses (fun k => clause? = none → k = none) m := by
  intro k hk hcall
  by_cases hnone : clause? = none → (Tree.read cs).callClause? k = none
  · exact .inl hnone
  rw [Classical.not_imp] at hnone
  have hmnode := mem_nodes_of_mem_children hp hm
  have hk' := Node.mem_preorder_of_mem_children hm hk
  have hspan := span_within hcs hp hk'
  have hlt := lt_stop_read hcs k (Node.preorder_subset_of_mem _ hmnode hk)
  refine .inr (hcloses hnone.1 k (Node.preorder_subset_of_mem n hwithin hk')
    (Nat.le_trans (span_within hcs hmnode hk).2 hstop) hcall
    (Option.isSome_iff_ne_none.2 hnone.2) fun q hq _ _ => ?_)
  have hq := hstart q hq
  omega

/-- The clause that the scan finds in all nodes around the cursor, up to `n`. -/
theorem run (h : Scans cs offset l clause?) (hword : AtWord cs offset) {n : Node}
    {path outer : List Node} (habove : l.above = path ++ n :: outer)
    (hpath : ∀ m ∈ path, m.kind.isNested = true) (hcall : n.kind.isCall = true)
    (hcomment : ∀ m ∈ n.preorder, m.span.stop ≤ offset → m.kind = .lineComment →
      Balanced ((Tree.read cs).chars m))
    (hcloses : clause? = none → (Tree.read cs).ClausesClosed offset path n) :
    Scans cs offset ⟨n, outer⟩ (clause?.or ((Tree.read cs).clauseAround? (path ++ [n]))) := by
  have hcs := hword.ne_nil
  induction path generalizing l clause? with
  | nil =>
    have hn := (parent_mem_locations (mem_locations_of_below h.mem) habove).1
    refine h.step hword habove ?_ ⟨n, List.mem_cons_self, hcall⟩ hcomment fun m =>
      closesClauses_of_mem_children hcs hcloses (mem_nodes_of_mem_locations hn)
        (Node.mem_preorder_self n) (by simp)
    revert hcall
    cases n.kind <;> decide
  | cons p path ih =>
    have hp := (parent_mem_locations (mem_locations_of_below h.mem) habove).1
    have hwithin : p ∈ n.preorder := mem_preorder_of_mem_above hp (by simp)
    have hstart : ∀ k ∈ p :: path, k.span.start ≤ p.span.start := by
      intro k hk
      rcases List.mem_cons.1 hk with rfl | hk
      · exact Nat.le_refl _
      · exact start_le_of_mem_above hcs hp (List.mem_append_left _ hk)
    have hstep := h.step hword habove (hpath p List.mem_cons_self) ⟨n, by simp, hcall⟩
      (fun m hm => hcomment m (Node.preorder_subset_of_mem n hwithin hm)) fun m =>
      closesClauses_of_mem_children hcs hcloses (mem_nodes_of_mem_locations hp) hwithin hstart
    have hrun := ih hstep rfl (fun m hm => hpath m (List.mem_cons_of_mem _ hm)) (by
      -- what is behind `p` matters if neither a clause was found nor `p` is one
      intro hnone m hm hstop hcallm hclause hafter
      obtain ⟨hnone, hself⟩ := Option.or_eq_none_iff.1 hnone
      refine hcloses hnone m hm hstop hcallm hclause fun k hk hcallk hclausek => ?_
      rcases List.mem_cons.1 hk with rfl | hk
      · rw [clauseAround?_singleton, if_pos hcallk] at hself
        rw [hself] at hclausek
        cases hclausek
      · exact hafter k hk hcallk hclausek)
    rwa [Option.or_assoc, ← clauseAround?_append, List.singleton_append] at hrun

end Scans

end Tree

/-! ### The slot of a cursor in a declaration -/

namespace Cursor

/-- A symbol in the namespace declaration `n`, after the name of the namespace. -/
structure InDeclaration (config : Config) (t : Tree) (c : Cursor) (path : List Node) (n : Node)
    (outer : List Node) : Prop where
  kind_eq : c.location.node.kind = .symbol
  above_eq : c.location.above = path ++ n :: outer
  isCall_eq : n.kind.isCall = true
  head?_eq : t.head? n = some .ns
  /-- There is no other declaration between them. -/
  nearest : ∀ m ∈ path, m.kind.isCall = true → t.head? m ≠ some .ns
  depth : path.length < config.maxTraversalDepth
  after_name : 2 ≤ c.ordinal n
  fits : byteLength (t.chars n) ≤ config.namespaceWindow

/-- The clause of the cursor can be read from the text of the declaration `n`, with the
    nodes `path` between the two: the parentheses and the quotes of a comment pair up, and
    clauses before the cursor are closed where that matters. -/
structure Legible (t : Tree) (c : Cursor) (path : List Node) (n : Node) : Prop where
  comment : ∀ m ∈ n.preorder, m.span.stop ≤ c.offset → m.kind = .lineComment →
    Balanced (t.chars m)
  clause : t.ClausesClosed c.offset path n

namespace InDeclaration

variable {config : Config} {t : Tree} {c : Cursor} {path outer : List Node} {n : Node}

theorem exists_calls_eq (h : InDeclaration config t c path n outer) :
    ∃ ms, c.calls config.maxTraversalDepth = path.filter (·.kind.isCall) ++ n :: ms := by
  have hkind : (c.location.node.kind.isCollection || c.location.node.kind == .root) = false := by
    rw [h.kind_eq]
    rfl
  obtain ⟨k, hk⟩ := Nat.exists_eq_add_of_lt h.depth
  refine ⟨(outer.take k).filter (·.kind.isCall), ?_⟩
  simp only [calls, around, hkind, Bool.false_eq_true, if_false, Location.ancestors, h.above_eq,
    List.map_take, Location.map_node_chain]
  rw [hk, Nat.add_assoc, List.take_length_add_append, List.take_succ_cons, List.filter_append,
    List.filter_cons_of_pos (by simp [h.isCall_eq])]

theorem namespaceAround?_eq (h : InDeclaration config t c path n outer) :
    t.namespaceAround? config c = some n := by
  obtain ⟨ms, hcalls⟩ := h.exists_calls_eq
  have hpath : (path.filter (·.kind.isCall)).find? (fun m => t.head? m == some .ns) = none := by
    rw [List.find?_eq_none]
    intro m hm hhead
    obtain ⟨hm, hcall⟩ := List.mem_filter.1 hm
    exact h.nearest m hm hcall (beq_iff_eq.1 hhead)
  rw [Tree.namespaceAround?, hcalls, List.find?_append, hpath, Option.none_or,
    List.find?_cons_of_pos (by simp [h.head?_eq])]

/-- The rules for other slots are tried before that for namespace declarations. -/
theorem slot_eq (h : InDeclaration config t c path n outer) :
    t.slot config c = (t.parameterVectorSlot? config c <|> t.bindingSlot? config c <|>
      t.definitionSlot? config c).getD
        (.inNamespace (clauseAt (t.namespaceWindow n c.offset config.namespaceWindow))) := by
  obtain ⟨ms, hcalls⟩ := h.exists_calls_eq
  have hkeyword : c.keywordSlot? = none := by
    rw [keywordSlot?, h.kind_eq]
    rfl
  have hform : c.newFormSlot? config.maxTraversalDepth = none := by
    rw [newFormSlot?, hcalls]
    simp
  have hnamespace : t.namespaceSlot? config c = some
      (.inNamespace (clauseAt (t.namespaceWindow n c.offset config.namespaceWindow))) := by
    obtain ⟨i, hi⟩ := Nat.exists_eq_add_of_le' h.after_name
    simp only [Tree.namespaceSlot?, h.namespaceAround?_eq, Option.bind_eq_bind, Option.bind_some,
      hi]
    rfl
  rw [Tree.slot, hkeyword, hform, hnamespace]
  cases t.parameterVectorSlot? config c <;> cases t.bindingSlot? config c <;>
    cases t.definitionSlot? config c <;> rfl

end InDeclaration

/-- The scan of what is typed of a symbol leaves no parentheses open. -/
theorem exists_scans {config : Config} (hp : config.Insertable) {cs : List Char} {offset : Nat}
    {t : Tree} {c : Cursor} (hcursor : inSource config cs offset = .ok (t, c))
    (hkind : c.location.node.kind = .symbol) :
    ∃ cs', t = Tree.read cs' ∧ AtWord cs' c.offset ∧ c.location.node.children = [] ∧
      Tree.Scans cs' c.offset c.location none := by
  obtain ⟨u, v, -, -, ht, hl, hoffset⟩ := exists_holds_of_inSource hp hcursor
  subst ht
  have hbelow : c.location ∈ (Tree.read (u ++ (config.placeholder.toList ++ v))).below := by
    refine Tree.below_of_kind_ne hl.mem ?_
    rw [hkind]
    decide
  rcases hl.cases with hother | ⟨-, u', x, y, _, rfl, -, hstart, hchars, hword, -⟩
  · rw [hkind] at hother
    exact absurd hother (by decide)
  obtain ⟨e, p, hplaceholder⟩ := List.exists_cons_of_ne_nil hp.ne_nil
  have hx : StandsAt (u' ++ x ++ (config.placeholder.toList ++ v)) (byteLength u') x :=
    ⟨u', config.placeholder.toList ++ v, by simp, rfl⟩
  rw [byteLength_append] at hoffset
  refine ⟨_, rfl, ⟨e, p, ?_, hword e (by simp [hplaceholder])⟩, hl.children_eq, hbelow,
    .inl hkind, ?_, fun stack => ?_⟩
  · exact ⟨u' ++ x, v, by rw [hplaceholder], by rw [hoffset, byteLength_append]⟩
  · rw [hstart, hoffset]
    exact Nat.le_add_right ..
  · have hbalanced : Balanced x := .of_unscanned fun d hd =>
      isScanned_of_isTerminator (hword d (List.mem_append_left _ hd))
    have hscan := hbalanced stack []
    rw [List.append_nil] at hscan
    rw [hstart, hoffset, hx.slice_eq, hscan, Option.none_or]
    rfl

/-- Whether the cursor at the offset is a symbol in a declaration, with `k` nodes between
    them, and passes the test. -/
def testInDeclaration (cs : List Char) (offset k : Nat)
    (test : Tree → Cursor → List Node → Node → Bool) : Bool :=
  (inSource {} cs offset).toOption.any fun x => x.2.location.node.kind == .symbol &&
    (x.2.location.above.take k).all (fun m => !m.kind.isCall || x.1.head? m != some .ns) &&
    (x.2.location.above.drop k).head?.any fun n => n.kind.isCall && x.1.head? n == some .ns &&
      decide (2 ≤ x.2.ordinal n) &&
      decide (byteLength (x.1.chars n) ≤ ({} : Config).namespaceWindow) &&
      test x.1 x.2 (x.2.location.above.take k) n

theorem exists_inDeclaration {cs : List Char} {offset k : Nat}
    {test : Tree → Cursor → List Node → Node → Bool}
    (h : testInDeclaration cs offset k test = true) (hk : k < ({} : Config).maxTraversalDepth) :
    ∃ t c path n outer, inSource {} cs offset = .ok (t, c) ∧
      InDeclaration {} t c path n outer ∧ test t c path n = true := by
  obtain ⟨t, c, hcursor, h⟩ := exists_of_any_inSource h
  simp only [Bool.and_eq_true, Option.any_eq_true, beq_iff_eq, List.all_eq_true, Bool.or_eq_true,
    Bool.not_eq_true', bne_iff_ne, decide_eq_true_eq] at h
  obtain ⟨⟨hkind, hpath⟩, n, hn, ⟨⟨⟨hcall, hhead⟩, hordinal⟩, hfits⟩, htest⟩ := h
  obtain ⟨outer, hrest⟩ := List.head?_eq_some_iff.1 hn
  refine ⟨t, c, c.location.above.take k, n, outer, hcursor, ?_, htest⟩
  exact
    { kind_eq := hkind
      above_eq := by rw [← hrest, List.take_append_drop]
      isCall_eq := hcall
      head?_eq := hhead
      nearest := fun m hm hcall => (hpath m hm).resolve_left (by simp [hcall])
      depth := Nat.lt_of_le_of_lt (List.length_take_le ..) hk
      after_name := hordinal
      fits := hfits }

/-- The clause found in the text before a symbol is that of the innermost call around the
    symbol that begins with a clause, unless a rule for another slot applies. -/
theorem slot_namespaceClause {config : Config}
    (hconfig : config.placeholder = ({} : Config).placeholder) {cs : List Char} {offset : Nat}
    {t : Tree} {c : Cursor} (hcursor : inSource config cs offset = .ok (t, c))
    {path outer : List Node} {n : Node} (hn : InDeclaration config t c path n outer)
    (hlegible : Legible t c path n) :
    t.slot config c = (t.parameterVectorSlot? config c <|> t.bindingSlot? config c <|>
      t.definitionSlot? config c).getD (.inNamespace
        ((t.clauseAround? path).getD .between)) := by
  obtain ⟨cs', rfl, hword, hnil, hscans⟩ :=
    exists_scans (Config.insertable_of_placeholder_eq hconfig) hcursor hn.kind_eq
  have hpath : ∀ m ∈ path, m.kind.isNested = true := by
    refine fun m hm => Tree.isNested_of_mem_above (Tree.mem_locations_of_below hscans.mem) hnil ?_
    rw [hn.above_eq, List.dropLast_append_of_ne_nil (List.cons_ne_nil _ _)]
    exact List.mem_append_left _ hm
  have hrun := hscans.run hword hn.above_eq hpath hn.isCall_eq hlegible.comment fun _ =>
    hlegible.clause
  have hclause := Tree.callClause?_eq_none (Tree.mem_locations_of_below hrun.mem) hn.isCall_eq
    hn.head?_eq
  have hroot : n.kind ≠ .root := by
    intro hkind
    have hcall := hn.isCall_eq
    rw [hkind] at hcall
    cases hcall
  have hwindow := Tree.namespaceWindow_eq hrun.mem_nodes hroot hn.fits hrun.start_le
    (Nat.le_of_lt hword.lt)
  -- the declaration itself begins with no clause
  have hscan := hrun.findSome?_eq []
  rw [Tree.clauseAround?_append, Tree.clauseAround?_singleton, if_pos hn.isCall_eq, hclause,
    List.findSome?_nil, Option.none_or, Option.or_none, Option.or_none] at hscan
  have hfound : clauseAt (slice cs' n.span.start c.offset) =
      (((Tree.read cs').clauseAround? path).getD .between) := by
    rw [clauseAt_eq, List.findSome?_map]
    exact congrArg (Option.getD · _) hscan
  rw [hn.slot_eq, hwindow, hfound]

/-- In a vector of a clause, after a list without an end and a string with a parenthesis in
    it. A comment with parentheses and a clause without an end come before the clause. -/
theorem slot_namespaceClause_nested :
    let comment := "; (see \"docs\")".toList
    let cs := "(ns a ".toList ++ comment ++
      "\n [(:use b] (:require [(f] [c \"(:use\" ]))".toList
    ∃ t c path n outer, inSource {} cs 58 = .ok (t, c) ∧ InDeclaration {} t c path n outer ∧
      Legible t c path n ∧ t.clauseAround? path = some .require ∧
      t.slot {} c = .inNamespace .require := by
  intro comment cs
  have htest : testInDeclaration cs 58 2 (fun t c path n =>
      t.clauseAround? path == some .require &&
      (t.parameterVectorSlot? {} c <|> t.bindingSlot? {} c <|> t.definitionSlot? {} c) == none &&
      n.preorder.all fun m => decide (c.offset < m.span.stop) ||
        (m.kind != .lineComment || t.chars m == comment) &&
          (!(t.callClause? m).isSome || path.any fun k => k.kind.isCall &&
            (t.callClause? k).isSome && decide (m.span.stop ≤ k.span.start))) = true := by
    decide +kernel
  obtain ⟨t, c, path, n, outer, hcursor, hn, htest⟩ := exists_inDeclaration htest (by decide)
  simp only [Bool.and_eq_true, beq_iff_eq, List.all_eq_true, Bool.or_eq_true, decide_eq_true_eq,
    bne_iff_ne, Bool.not_eq_true', List.any_eq_true] at htest
  obtain ⟨⟨hclause, hother⟩, hall⟩ := htest
  have hcomment : Balanced comment := fun _ _ => rfl
  have hlegible : Legible t c path n := by
    refine ⟨fun m hm hstop hkind => ?_, fun m hm hstop _ hclause hafter => ?_⟩
    · rw [((hall m hm).resolve_left (Nat.not_lt.2 hstop)).1.resolve_left fun h => h hkind]
      exact hcomment
    · -- the clause around the cursor starts after it
      obtain ⟨k, hk, ⟨hcall, hclausek⟩, hstart⟩ :=
        ((hall m hm).resolve_left (Nat.not_lt.2 hstop)).2.resolve_left (by simp [hclause])
      exact absurd (hafter k hk hcall hclausek) (Nat.not_lt.2 hstart)
  have hslot := slot_namespaceClause rfl hcursor hn hlegible
  rw [hother, hclause] at hslot
  exact ⟨t, c, path, n, outer, hcursor, hn, hlegible, hclause, hslot⟩

/-- The symbol at the offset is in a declaration and has the slot, and the nodes between the
    two pass the test. -/
def HasSlot (cs : List Char) (offset : Nat) (test : Tree → List Node → Bool) (slot : Slot) :
    Prop :=
  ∃ t c path n outer, inSource {} cs offset = .ok (t, c) ∧ InDeclaration {} t c path n outer ∧
    test t path = true ∧ t.slot {} c = slot

theorem hasSlot_of_test {cs : List Char} {offset : Nat} {test : Tree → List Node → Bool}
    {slot : Slot} (k : Nat) (hk : k < ({} : Config).maxTraversalDepth)
    (h : testInDeclaration cs offset k (fun t c path _ => test t path && t.slot {} c == slot) =
      true) : HasSlot cs offset test slot := by
  obtain ⟨t, c, path, n, outer, hcursor, hn, htest⟩ := exists_inDeclaration h hk
  rw [Bool.and_eq_true, beq_iff_eq] at htest
  exact ⟨t, c, path, n, outer, hcursor, hn, htest⟩

/-- The slot is not always that of the innermost list with the keyword of a clause and a
    blank after it. The name of a definition has a slot of its own. A vector may follow the
    keyword at once, and the call may be a short function. For the scan, an unfinished clause
    stays open, a clause stays open if a list in it is unfinished, and a comment can open a
    clause, close one or start a string. And the declaration is not found if it is too far
    away. -/
theorem slot_ne_namespaceClause :
    HasSlot "(ns a (def ))".toList 11 (fun t path => t.clauseAround? path == none)
      .definitionName ∧
    HasSlot "(ns a (:require[]))".toList 16
      (fun _ path => path.all fun m => m.children[2]?.all (·.kind != .whitespace))
      (.inNamespace .require) ∧
    HasSlot "(ns a |(:use ))".toList 13 (fun _ path => path.all (·.kind != .list))
      (.inNamespace .use) ∧
    HasSlot "(ns a [(:use b] )".toList 16 (fun t path => t.clauseAround? path == none)
      (.inNamespace .use) ∧
    HasSlot "(ns a (:use [(f]) )".toList 18 (fun t path => t.clauseAround? path == none)
      (.inNamespace .use) ∧
    HasSlot "(ns a ; (:use\n )".toList 15 (fun t path => t.clauseAround? path == none)
      (.inNamespace .use) ∧
    HasSlot "(ns a (:use b ; :)\n ))".toList 20 (fun t path => t.clauseAround? path == some .use)
      (.inNamespace .between) ∧
    HasSlot "(ns a ; \"\n (:use b ))".toList 19 (fun t path => t.clauseAround? path == some .use)
      (.inNamespace .between) ∧
    ∃ t c n outer, inSource {} "(ns a (:use [[[[[[[[[[[[[[[[[[[]]]]]]]]]]]]]]]]]]]))".toList 31 =
        .ok (t, c) ∧ c.location.above.drop 20 = n :: outer ∧ t.head? n = some .ns ∧
      2 ≤ c.ordinal n ∧ t.clauseAround? (c.location.above.take 20) = some .use ∧
      t.slot {} c = .expression := by
  refine ⟨hasSlot_of_test 1 (by decide) (by decide +kernel),
    hasSlot_of_test 2 (by decide) (by decide +kernel),
    hasSlot_of_test 1 (by decide) (by decide +kernel),
    hasSlot_of_test 0 (by decide) (by decide +kernel),
    hasSlot_of_test 0 (by decide) (by decide +kernel),
    hasSlot_of_test 0 (by decide) (by decide +kernel),
    hasSlot_of_test 1 (by decide) (by decide +kernel),
    hasSlot_of_test 1 (by decide) (by decide +kernel), ?_⟩
  have htest : (inSource {} "(ns a (:use [[[[[[[[[[[[[[[[[[[]]]]]]]]]]]]]]]]]]]))".toList
      31).toOption.any (fun x => (x.2.location.above.drop 20).head?.any (fun n =>
        x.1.head? n == some .ns && decide (2 ≤ x.2.ordinal n)) &&
      x.1.clauseAround? (x.2.location.above.take 20) == some .use &&
      x.1.slot {} x.2 == .expression) = true := by decide +kernel
  obtain ⟨t, c, hcursor, h⟩ := exists_of_any_inSource htest
  simp only [Bool.and_eq_true, Option.any_eq_true, beq_iff_eq, decide_eq_true_eq] at h
  obtain ⟨⟨⟨n, hn, hhead, hordinal⟩, hclause⟩, hslot⟩ := h
  obtain ⟨outer, hrest⟩ := List.head?_eq_some_iff.1 hn
  exact ⟨t, c, n, outer, hcursor, hrest, hhead, hordinal, hclause, hslot⟩

end Cursor

end Typeahead
