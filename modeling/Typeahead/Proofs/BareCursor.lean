import Typeahead.Proofs.Placeholder
import Typeahead.Proofs.Unfinished
import Typeahead.Scope.Collector

/-!
# Cursors with and without a placeholder

Some hosts put a placeholder into the text at the cursor, others name the cursor in
the text as it is. Inside a blank, both find the same local names, in the same order
and equally deep, with two exceptions.

* A name whose clause lacks the form that the blank is the place of is *unfinished*
  (`Tree.unfinished`). Without the placeholder, it can be used in its own value. With
  it, it cannot, unless the placeholder is deactivated.
* In `(  fn [y] y)` the placeholder becomes the head of the list, which is a function
  without it. The names around the list are one function further away then.

`Cursor.collect_inSource_eq_iff` says that there are no others.
-/

namespace Typeahead

/-! ### Where clauses are unfinished -/

theorem Style.mem_vectors {t : Tree} {s : Style} {v : Node} {x : Style × Node}
    (h : x ∈ s.vectors t v) : x.2 = v ∨ x.2 ∈ v.activeForms ∧ x.2.kind = .vector := by
  cases s with
  | pairs | firstPair | each => exact .inl (congrArg Prod.snd (List.mem_singleton.1 h))
  | comprehension =>
    rcases List.mem_cons.1 h with rfl | h
    · exact .inl rfl
    · obtain ⟨m, hm, rfl⟩ := List.mem_map.1 h
      exact .inr (Tree.mem_of_mem_letVectors hm)

namespace Place

variable {cs : List Char} {offset : Nat} (w : Place cs offset)

theorem exists_unfinishedIn {l : Location}
    (h : (Tree.read cs).unfinishedAt w.token offset l ≠ []) :
    ∃ v ∈ l.node.activeForms, v.kind = .vector ∧ ∃ s x,
      (x = v ∨ x ∈ v.activeForms ∧ x.kind = .vector) ∧
      (Tree.read cs).unfinishedIn w.token offset s x ≠ [] := by
  rw [Tree.unfinishedAt] at h
  cases hr : (Tree.read cs).rule? l with
  | none => rw [hr] at h; exact absurd rfl h
  | some r =>
    rw [hr, Option.map_some, Option.getD_some, ne_eq, List.map_eq_nil_iff] at h
    obtain ⟨x, hx, hne⟩ : ∃ x ∈ r.vectors (Tree.read cs) l.node.activeForms,
        (Tree.read cs).unfinishedIn w.token offset x.1 x.2 ≠ [] := by
      by_contra hnone
      exact h (Tree.unfinishedAmong_eq_nil fun x hx => by_contra fun hne => hnone ⟨x, hx, hne⟩)
    rw [Rule.vectors] at hx
    cases hfind : r.naming.slot.find l.node.activeForms with
    | none => rw [hfind] at hx; exact absurd hx List.not_mem_nil
    | some v =>
      rw [hfind, Option.map_some, Option.getD_some] at hx
      cases hnaming : r.naming with
      | pattern slot => rw [hnaming] at hx; exact absurd hx List.not_mem_nil
      | vector s =>
        rw [hnaming] at hx hfind
        exact ⟨v, NameSlot.mem_of_find _ hfind, NameSlot.kind_of_find hfind, x.1, x.2,
          Style.mem_vectors hx, hne⟩

/-- Something is unfinished at a list only if the place is directly in a vector, which
    is a child of the list or of a vector in it. -/
theorem of_unfinishedAt_ne_nil {l : Location} (hl : l ∈ (Tree.read cs).locations)
    (h : (Tree.read cs).unfinishedAt w.token offset l ≠ []) :
    (∃ s, (Tree.read cs).unfinishedIn w.token offset s w.node ≠ []) ∧ w.node.kind = .vector ∧
      (w.outer = l.node :: l.above ∨
        ∃ q, q.kind = .vector ∧ w.outer = q :: l.node :: l.above) := by
  obtain ⟨v, hv, hkind, s, x, hx, hne⟩ := w.exists_unfinishedIn h
  have hid : x.id = w.node.id := by
    by_contra hid
    exact hne (w.unfinishedIn_eq_nil hid s)
  have hvmem := Tree.children_subset_locations hl
    (List.mem_map.2 ⟨v, l.node.activeForms_subset_children hv, rfl⟩)
  -- the vector is the node around the place, and has one location
  rcases hx with rfl | ⟨hx, hxkind⟩
  · have heq := Tree.location_eq_of_id_eq hvmem w.node_mem hid
    obtain rfl : x = w.node := congrArg Location.node heq
    exact ⟨⟨s, hne⟩, hkind, .inl (congrArg Location.above heq).symm⟩
  · have hxmem := Tree.children_subset_locations hvmem
      (List.mem_map.2 ⟨x, v.activeForms_subset_children hx, rfl⟩)
    have heq := Tree.location_eq_of_id_eq hxmem w.node_mem hid
    obtain rfl : x = w.node := congrArg Location.node heq
    exact ⟨⟨s, hne⟩, hxkind, .inr ⟨v, hkind, (congrArg Location.above heq).symm⟩⟩

/-- An active form at the place comes after it. -/
theorem exists_mem_activeForms (hform : w.token.node.kind.isForm = true)
    (hactive : w.token.IsActive) : ∃ c ∈ w.node.activeForms, offset < c.span.stop := by
  obtain ⟨c, post, hchildren, hc, hmem, -, hstop⟩ := w.exists_child
  have hcform : c.kind.isForm = true := by
    rcases hc with rfl | hc
    · exact hform
    · rw [w.kind_path c hc]
      rfl
  have hbefore := (Tree.siblings_of_children_eq w.ne_nil
    (Tree.selfAndAncestors_subset_locations w.mem hmem) rfl hchildren).1
  -- whether a child is active depends on the children before it
  have hoff := hactive _ hmem hcform
  rw [Location.isDeactivated, hbefore, List.map_reverse] at hoff
  refine ⟨c, ?_, hstop⟩
  rw [Node.activeForms_eq_activeAmong, hchildren, activeAmong_append, List.append_nil]
  refine List.mem_append_right _ ?_
  rw [activeAmong, judgeForms, if_pos hcform, hoff]
  exact List.mem_cons_self

/-- An active form at the place leaves nothing unfinished. -/
theorem unfinished_eq_nil_of_isActive (hform : w.token.node.kind.isForm = true)
    (hactive : w.token.IsActive) (maxDepth : Nat) :
    (Tree.read cs).unfinished w.token offset maxDepth = [] := by
  obtain ⟨c, hc, hstop⟩ := w.exists_mem_activeForms hform hactive
  have hall : ¬ w.node.activeForms.all (·.span.stop ≤ offset) = true := by
    intro hall
    exact absurd hstop (Nat.not_lt.2 (of_decide_eq_true (List.all_eq_true.1 hall c hc)))
  rw [Tree.unfinished, Tree.unfinishedAlong, List.flatMap_eq_nil_iff]
  intro l hl
  have hmem := Tree.selfAndAncestors_subset_locations w.mem
    (List.mem_cons_of_mem _ (List.take_subset _ _ (List.mem_filter.1 hl).1))
  by_contra hne
  obtain ⟨⟨s, hs⟩, -⟩ := w.of_unfinishedAt_ne_nil hmem hne
  rw [Tree.unfinishedIn, Bool.eq_false_iff.2 hall, Bool.and_false, if_neg Bool.false_ne_true] at hs
  exact hs rfl

end Place

/-! ### Bindings further away -/

/-- So many functions further away. -/
def Binding.deepen (k : Nat) (b : Binding) : Binding :=
  match b.depth with
  | .within d => { b with depth := .within (k + d) }
  | .global => b

theorem Binding.map_deepen_zero (bs : List Binding) : bs.map (deepen 0) = bs := by
  have hzero : ∀ b : Binding, b.deepen 0 = b := by
    rintro ⟨name, kind, depth, file, signature⟩
    cases depth with
    | within d => simp only [deepen, Nat.zero_add]
    | global => rfl
  exact List.map_id'' hzero bs

namespace Tree

variable {t : Tree} {cursor : Location} {offset : Nat}

theorem countP_isLiveFunction {l : Location} (h : t.isLive l = false) :
    [l].countP t.isLiveFunction = 0 := by
  rw [List.countP_singleton, isLiveFunction, h]
  rfl

theorem bindingsAt_add (k depth : Nat) (l : Location) :
    t.bindingsAt cursor offset (k + depth) l =
      (t.bindingsAt cursor offset depth l).map (Binding.deepen k) := by
  rw [bindingsAt_eq, bindingsAt_eq]
  cases t.rule? l with
  | none => rfl
  | some r =>
    rw [Option.map_some, Option.map_some, Option.getD_some, Option.getD_some, List.map_map]
    rfl

theorem bindingsAlong_add (k depth : Nat) (ls : List Location) :
    t.bindingsAlong cursor offset (k + depth) ls =
      (t.bindingsAlong cursor offset depth ls).map (Binding.deepen k) := by
  induction ls generalizing depth with
  | nil => rfl
  | cons l ls ih =>
    rw [bindingsAlong_cons, bindingsAlong_cons, List.map_append, Nat.add_assoc, ih, bindingsAt_add]
    split <;> rfl

theorem unfinishedAlong_cons (l : Location) (ls : List Location) :
    t.unfinishedAlong cursor offset (l :: ls) =
      (if t.isLive l then t.unfinishedAt cursor offset l else []) ++
        t.unfinishedAlong cursor offset ls := by
  rw [unfinishedAlong, List.filter_cons]
  split <;> rfl

/-- Where nothing is live, nothing is bound. -/
theorem bindingsAlong_append {ls : List Location} (h : ∀ l ∈ ls, t.isLive l = false)
    (depth : Nat) (ms : List Location) :
    t.bindingsAlong cursor offset depth (ls ++ ms) = t.bindingsAlong cursor offset depth ms := by
  induction ls with
  | nil => rfl
  | cons l ls ih =>
    have hlive := h l List.mem_cons_self
    rw [List.cons_append, bindingsAlong_cons, hlive, countP_isLiveFunction hlive,
      ← ih fun m hm => h m (List.mem_cons_of_mem _ hm)]
    rfl

/-- The names that lists along the way out bind are so many functions away. -/
theorem depth_of_mem_bindingsAlong {depth : Nat} {ls : List Location} {b : Binding}
    (hb : b ∈ t.bindingsAlong cursor offset depth ls) : ∃ d, b.depth = .within d := by
  induction ls generalizing depth with
  | nil => exact absurd hb List.not_mem_nil
  | cons l ls ih =>
    rw [bindingsAlong_cons] at hb
    rcases List.mem_append.1 hb with hb | hb
    · split at hb
      · obtain ⟨_, _, -, -, -, -, -, heq⟩ := mem_bindingsAt_iff.1 hb
        exact ⟨depth, by rw [heq]⟩
      · exact absurd hb List.not_mem_nil
    · exact ih hb

end Tree

/-! ### Lists further outside -/

theorem Location.pairwise_chain {R : Location → Location → Prop} {ns : List Node}
    (h : ∀ a ∈ chain ns, ∀ b ∈ a.ancestors, R a b) : (chain ns).Pairwise R := by
  induction ns with
  | nil => exact .nil
  | cons n ns ih =>
    exact .cons (h _ List.mem_cons_self) (ih fun a ha => h a (List.mem_cons_of_mem _ ha))

/-- Outside the first list around the place, nothing is unfinished. -/
theorem Place.unfinishedAt_eq_nil {cs : List Char} {offset : Nat} (w : Place cs offset)
    {a b : Location} (ha : a ∈ Location.chain w.outer) (hkind : a.node.kind ≠ .vector)
    (hb : b ∈ a.ancestors) : (Tree.read cs).unfinishedAt w.token offset b = [] := by
  have hmem : b ∈ (Tree.read cs).locations := by
    have ha := Tree.selfAndAncestors_subset_locations w.node_mem (List.mem_cons_of_mem _ ha)
    exact Tree.selfAndAncestors_subset_locations ha (List.mem_cons_of_mem _ hb)
  obtain ⟨as, has⟩ := Location.exists_of_mem_chain ha
  obtain ⟨bs, hbs⟩ := Location.exists_of_mem_chain hb
  by_contra hne
  obtain ⟨-, -, houter | ⟨q, hq, houter⟩⟩ := w.of_unfinishedAt_ne_nil hmem hne
  · -- between the place and `b` there is at least `a`
    have hlength := congrArg List.length (has.symm.trans houter)
    simp only [hbs, List.length_append, List.length_cons] at hlength
    omega
  · have hlength := congrArg List.length (has.symm.trans houter)
    simp only [hbs, List.length_append, List.length_cons] at hlength
    -- and if there is only one node in between, it is `a`
    obtain rfl : as = [] := List.eq_nil_of_length_eq_zero (by omega)
    obtain ⟨rfl, -⟩ := List.cons.inj (has.symm.trans houter)
    exact hkind hq

namespace Twins

variable {u p v : List Char} (tw : Twins u p v)

/-- Nothing is unfinished at the list, before and after. -/
def Settled (l : Location) : Prop :=
  (Tree.read (u ++ v)).unfinishedAt tw.bare.token (byteLength u) l = [] ∧
    (Tree.read (u ++ (p ++ v))).unfinishedAt tw.full.token (byteLength u) (l.move tw.gap) = []

/-- A list around the one that changes binds the same names in both trees, apart from
    those that are unfinished. -/
theorem exists_bindingsAt {l : Location} (hl : l ∈ tw.levels) (hid : l.node.id ≠ tw.bare.node.id) :
    ∃ bs, (Tree.read (u ++ v)).bindingsAt tw.bare.token (byteLength u) 0 l =
        bs ++ (Tree.read (u ++ v)).unfinishedAt tw.bare.token (byteLength u) l ∧
      (Tree.read (u ++ (p ++ v))).bindingsAt tw.full.token (byteLength u) 0 (l.move tw.gap) =
        bs ++ (Tree.read (u ++ (p ++ v))).unfinishedAt tw.full.token (byteLength u)
          (l.move tw.gap) := by
  rw [Tree.bindingsAt_eq, Tree.bindingsAt_eq, Tree.unfinishedAt, Tree.unfinishedAt,
    tw.rule?_move hl hid]
  cases (Tree.read (u ++ v)).rule? l with
  | none => exact ⟨[], rfl, rfl⟩
  | some r =>
    obtain ⟨names, hbare, hfull⟩ :=
      tw.alike_rule r (tw.outside_of_mem (tw.mem_of_mem_levels hl).2.1) hid
    refine ⟨names.map (r.binding 0), ?_, ?_⟩
    · rw [Option.map_some, Option.map_some, Option.getD_some, Option.getD_some, hbare,
        List.map_append]
    · rw [Option.map_some, Option.map_some, Option.getD_some, Option.getD_some, Location.move,
        hfull, List.map_append]

theorem isLiveFunction_move {l : Location} (hl : l ∈ tw.levels)
    (hid : l.node.id ≠ tw.bare.node.id) :
    (Tree.read (u ++ (p ++ v))).isLiveFunction (l.move tw.gap) =
      (Tree.read (u ++ v)).isLiveFunction l := by
  have hhead : (Tree.read (u ++ (p ++ v))).head? (l.move tw.gap).node =
      (Tree.read (u ++ v)).head? l.node :=
    (tw.outside_of_mem (tw.mem_of_mem_levels hl).2.1).head?_move hid
  rw [Tree.isLiveFunction, Tree.isLiveFunction, tw.isLive_move hl, hhead]

theorem unfinishedAlong_eq_nil {ls : List Location} (h : ∀ l ∈ ls, tw.Settled l) :
    (Tree.read (u ++ v)).unfinishedAlong tw.bare.token (byteLength u) ls = [] ∧
      (Tree.read (u ++ (p ++ v))).unfinishedAlong tw.full.token (byteLength u)
        (ls.map (·.move tw.gap)) = [] := by
  constructor
  · exact List.flatMap_eq_nil_iff.2 fun l hl => (h l (List.mem_filter.1 hl).1).1
  · refine List.flatMap_eq_nil_iff.2 fun m hm => ?_
    obtain ⟨l, hl, rfl⟩ := List.mem_map.1 (List.mem_filter.1 hm).1
    exact (h l hl).2

/-- Lists around the one that changes bind the same names along the way out, apart from
    those that are unfinished, if only the innermost of them may have such. -/
theorem exists_bindingsAlong {ls : List Location}
    (hls : ∀ l ∈ ls, l ∈ tw.levels ∧ l.node.id ≠ tw.bare.node.id)
    (hsettled : ls.Pairwise fun a b => (Tree.read (u ++ v)).isLive a = true → tw.Settled b) :
    ∃ before after, (Tree.read (u ++ v)).bindingsAlong tw.bare.token (byteLength u) 0 ls =
        before ++ (Tree.read (u ++ v)).unfinishedAlong tw.bare.token (byteLength u) ls ++ after ∧
      (Tree.read (u ++ (p ++ v))).bindingsAlong tw.full.token (byteLength u) 0
          (ls.map (·.move tw.gap)) =
        before ++ (Tree.read (u ++ (p ++ v))).unfinishedAlong tw.full.token (byteLength u)
          (ls.map (·.move tw.gap)) ++ after := by
  induction ls with
  | nil => exact ⟨[], [], rfl, rfl⟩
  | cons l ls ih =>
    obtain ⟨hl, hid⟩ := hls l List.mem_cons_self
    obtain ⟨hfirst, hrest⟩ := List.pairwise_cons.1 hsettled
    obtain ⟨before, after, hbare, hfull⟩ := ih (fun m hm => hls m (List.mem_cons_of_mem _ hm)) hrest
    have hcount : [l.move tw.gap].countP (Tree.read (u ++ (p ++ v))).isLiveFunction =
        [l].countP (Tree.read (u ++ v)).isLiveFunction := by
      rw [List.countP_singleton, List.countP_singleton, tw.isLiveFunction_move hl hid]
    rw [List.map_cons, Tree.bindingsAlong_cons, Tree.bindingsAlong_cons, Tree.unfinishedAlong_cons,
      Tree.unfinishedAlong_cons, hcount, tw.isLive_move hl, Nat.zero_add]
    by_cases hlive : (Tree.read (u ++ v)).isLive l = true
    · -- the rest has nothing unfinished, so that it is the same, only deeper
      have hnone := tw.unfinishedAlong_eq_nil fun m hm => hfirst m hm hlive
      rw [hnone.1, List.append_nil] at hbare
      rw [hnone.2, List.append_nil, ← hbare] at hfull
      obtain ⟨bs, hbs, hbs'⟩ := tw.exists_bindingsAt hl hid
      refine ⟨bs, (Tree.read (u ++ v)).bindingsAlong tw.bare.token (byteLength u)
        ([l].countP (Tree.read (u ++ v)).isLiveFunction) ls, ?_, ?_⟩
      · rw [if_pos hlive, if_pos hlive, hnone.1, List.append_nil, hbs]
      · rw [if_pos hlive, if_pos hlive, hnone.2, List.append_nil, hbs',
          ← Nat.add_zero ([l].countP _), Tree.bindingsAlong_add, Tree.bindingsAlong_add, hfull]
    · rw [if_neg hlive, if_neg hlive, if_neg hlive, if_neg hlive,
        Tree.countP_isLiveFunction (Bool.eq_false_iff.2 hlive)]
      exact ⟨before, after, hbare, hfull⟩

/-- Of the lists around the one that changes, only the innermost may have unfinished
    clauses. -/
theorem pairwise_settled : (Location.chain tw.bare.outer).Pairwise fun a b =>
    (Tree.read (u ++ v)).isLive a = true → tw.Settled b := by
  refine Location.pairwise_chain fun a ha b hb hlive => ?_
  have hlevel : a ∈ tw.levels := List.mem_cons_of_mem _ ha
  have hkind : a.node.kind ≠ .vector := by
    intro hvector
    rw [Tree.isLive, hvector] at hlive
    cases hlive
  have hmoved : a.move tw.gap ∈ Location.chain tw.full.outer := by
    rw [tw.outer_eq, Location.chain_map_move]
    exact List.mem_map_of_mem ha
  have habove : b.move tw.gap ∈ (a.move tw.gap).ancestors := by
    have hmap : (a.move tw.gap).ancestors = a.ancestors.map (·.move tw.gap) :=
      Location.chain_map_move tw.gap a.above
    rw [hmap]
    exact List.mem_map_of_mem hb
  refine ⟨tw.bare.unfinishedAt_eq_nil ha hkind hb, tw.full.unfinishedAt_eq_nil hmoved ?_ habove⟩
  have hsame := tw.kind_move (Tree.mem_nodes_of_mem_locations (tw.mem_of_mem_levels hlevel).1)
  exact hsame.trans_ne hkind

end Twins

/-! ### The way out -/

/-- How many functions, one or none, the innermost node around a cursor is, apart from
    quoted forms. -/
def Tree.innermostFunctions (t : Tree) (cursor : Location) : Nat :=
  (cursor.ancestors.find? (·.node.kind != .quoted)).toList.countP t.isLiveFunction

theorem Location.exists_chain_append (as bs : List Node) : ∃ ls,
    chain (as ++ bs) = ls ++ chain bs ∧ ls.length = as.length ∧ ∀ l ∈ ls, l.node ∈ as := by
  induction as with
  | nil => exact ⟨[], rfl, rfl, fun l hl => absurd hl List.not_mem_nil⟩
  | cons a as ih =>
    obtain ⟨ls, happ, hlength, hls⟩ := ih
    refine ⟨⟨a, as ++ bs⟩ :: ls, congrArg (_ :: ·) happ, congrArg (· + 1) hlength, ?_⟩
    intro l hl
    rcases List.mem_cons.1 hl with rfl | hl
    · exact List.mem_cons_self
    · exact List.mem_cons_of_mem _ (hls l hl)

namespace Place

variable {cs : List Char} {offset : Nat} (w : Place cs offset)

theorem exists_ancestors : ∃ ls,
    w.token.ancestors = ls ++ Location.chain (w.node :: w.outer) ∧ ls.length = w.path.length ∧
      ∀ l ∈ ls, l.node.kind = .quoted := by
  obtain ⟨ls, happ, hlength, hls⟩ := Location.exists_chain_append w.path (w.node :: w.outer)
  refine ⟨ls, ?_, hlength, fun l hl => w.kind_path _ (hls l hl)⟩
  rw [Location.ancestors, w.above_eq, happ]

theorem innermostFunctions_eq : (Tree.read cs).innermostFunctions w.token =
    [⟨w.node, w.outer⟩].countP (Tree.read cs).isLiveFunction := by
  obtain ⟨ls, happ, -, hls⟩ := w.exists_ancestors
  have hnone : ls.find? (·.node.kind != .quoted) = none := by
    rw [List.find?_eq_none]
    intro l hl
    simp [hls l hl]
  rw [Tree.innermostFunctions, happ, List.find?_append, hnone, Option.none_or, Location.chain,
    List.find?_cons_of_pos (by simp [w.kind_ne])]
  rfl

/-- Quoted forms bind nothing. -/
theorem exists_take (maxDepth : Nat) : ∃ ls, w.token.ancestors.take maxDepth =
      ls ++ (Location.chain (w.node :: w.outer)).take (maxDepth - w.path.length) ∧
    ∀ l ∈ ls, (Tree.read cs).isLive l = false := by
  obtain ⟨ls, happ, hlength, hls⟩ := w.exists_ancestors
  refine ⟨ls.take maxDepth, ?_, fun l hl => ?_⟩
  · rw [happ, List.take_append, hlength]
  · rw [Tree.isLive, hls l (List.take_subset _ _ hl)]
    rfl

theorem lexicalBindings_eq (maxDepth : Nat) :
    (Tree.read cs).lexicalBindings maxDepth w.token offset =
      (Tree.read cs).bindingsAlong w.token offset 0
        ((Location.chain (w.node :: w.outer)).take (maxDepth - w.path.length)) := by
  obtain ⟨ls, happ, hls⟩ := w.exists_take maxDepth
  rw [Tree.lexicalBindings, happ, Tree.bindingsAlong_append hls]

theorem unfinished_eq (maxDepth : Nat) :
    (Tree.read cs).unfinished w.token offset maxDepth =
      (Tree.read cs).unfinishedAlong w.token offset
        ((Location.chain (w.node :: w.outer)).take (maxDepth - w.path.length)) := by
  obtain ⟨ls, happ, hls⟩ := w.exists_take maxDepth
  have hnone : ls.filter (Tree.read cs).isLive = [] :=
    List.filter_eq_nil_iff.2 fun l hl => Bool.eq_false_iff.1 (hls l hl)
  rw [Tree.unfinished, happ, Tree.unfinishedAlong, List.filter_append, hnone, List.nil_append]
  rfl

end Place

namespace Twins

variable {u p v : List Char} (tw : Twins u p v)

/-- If the list around the place is live, nothing is unfinished anywhere. -/
theorem settled_of_isLive {l : Location} (hl : l ∈ tw.levels)
    (hlive : (Tree.read (u ++ v)).isLive ⟨tw.bare.node, tw.bare.outer⟩ = true) : tw.Settled l := by
  have hbare : tw.bare.node.kind ≠ .vector := by
    intro hvector
    rw [Tree.isLive, hvector] at hlive
    cases hlive
  have hsame : tw.full.node.kind = tw.bare.node.kind := congrArg Heading.kind tw.heading_eq
  constructor
  · by_contra hne
    exact hbare (tw.bare.of_unfinishedAt_ne_nil (tw.mem_of_mem_levels hl).1 hne).2.1
  · by_contra hne
    exact hbare (hsame.symm.trans
      (tw.full.of_unfinishedAt_ne_nil (tw.move_mem_locations hl) hne).2.1)

theorem move_innermost : Location.move tw.gap ⟨tw.bare.node, tw.bare.outer⟩ =
    ⟨tw.full.node, tw.full.outer⟩ := by
  rw [Location.move, tw.move_node, tw.outer_eq]

/-- The names that the lists around the one that changes bind, up to some depth. -/
theorem exists_bindingsAlong_outer (n : Nat) : ∃ before after : List Binding,
    (Tree.read (u ++ v)).bindingsAlong tw.bare.token (byteLength u) 0
        ((Location.chain tw.bare.outer).take n) =
      before ++ (Tree.read (u ++ v)).unfinishedAlong tw.bare.token (byteLength u)
        ((Location.chain tw.bare.outer).take n) ++ after ∧
    (Tree.read (u ++ (p ++ v))).bindingsAlong tw.full.token (byteLength u) 0
        ((Location.chain tw.full.outer).take n) =
      before ++ (Tree.read (u ++ (p ++ v))).unfinishedAlong tw.full.token (byteLength u)
        ((Location.chain tw.full.outer).take n) ++ after := by
  rw [tw.outer_eq, Location.chain_map_move, ← List.map_take]
  refine tw.exists_bindingsAlong (fun l hl => ?_)
    (tw.pairwise_settled.sublist (List.take_sublist _ _))
  have hl := List.take_subset _ _ hl
  obtain ⟨as, happ⟩ := Location.exists_of_mem_chain hl
  exact ⟨List.mem_cons_of_mem _ hl, tw.id_ne _ (by simp [happ])⟩

/-- If the list around the place is live, nothing is unfinished around it. -/
theorem unfinishedAlong_of_isLive
    (hlive : (Tree.read (u ++ v)).isLive ⟨tw.bare.node, tw.bare.outer⟩ = true) (n : Nat) :
    (Tree.read (u ++ v)).unfinishedAlong tw.bare.token (byteLength u)
        ((Location.chain (tw.bare.node :: tw.bare.outer)).take n) = [] ∧
      (Tree.read (u ++ (p ++ v))).unfinishedAlong tw.full.token (byteLength u)
        ((Location.chain (tw.full.node :: tw.full.outer)).take n) = [] := by
  have hchain : Location.chain (tw.full.node :: tw.full.outer) =
      (Location.chain (tw.bare.node :: tw.bare.outer)).map (·.move tw.gap) := by
    rw [← Location.chain_map_move, List.map_cons, tw.move_node, tw.outer_eq]
  rw [hchain, ← List.map_take]
  exact tw.unfinishedAlong_eq_nil fun l hl =>
    tw.settled_of_isLive (List.take_subset _ _ hl) hlive

/-- The local names before and after a word is put in. -/
theorem exists_lexicalBindings (maxDepth : Nat) : ∃ before after : List Binding,
    (∀ b ∈ after, ∃ d, b.depth = .within d) ∧
    (Tree.read (u ++ v)).lexicalBindings maxDepth tw.bare.token (byteLength u) =
      before ++ (Tree.read (u ++ v)).unfinished tw.bare.token (byteLength u) maxDepth ++
        after.map (Binding.deepen ((Tree.read (u ++ v)).innermostFunctions tw.bare.token)) ∧
    (Tree.read (u ++ (p ++ v))).lexicalBindings maxDepth tw.full.token (byteLength u) =
      before ++ (Tree.read (u ++ (p ++ v))).unfinished tw.full.token (byteLength u) maxDepth ++
        after.map
          (Binding.deepen ((Tree.read (u ++ (p ++ v))).innermostFunctions tw.full.token)) := by
  rw [tw.bare.lexicalBindings_eq, tw.full.lexicalBindings_eq, tw.bare.unfinished_eq,
    tw.full.unfinished_eq, tw.bare.innermostFunctions_eq, tw.full.innermostFunctions_eq,
    tw.length_path]
  cases maxDepth - tw.bare.path.length with
  | zero => exact ⟨[], [], fun b hb => absurd hb List.not_mem_nil, rfl, rfl⟩
  | succ n =>
    have hsame := tw.isLive_move (l := ⟨tw.bare.node, tw.bare.outer⟩) List.mem_cons_self
    rw [tw.move_innermost] at hsame
    obtain ⟨before, after, hbare, hfull⟩ := tw.exists_bindingsAlong_outer n
    have hdepth : ∀ b ∈ before ++ after, ∃ d, b.depth = .within d := by
      intro b hb
      have hmem : b ∈ (Tree.read (u ++ v)).bindingsAlong tw.bare.token (byteLength u) 0
          ((Location.chain tw.bare.outer).take n) := by
        rw [hbare]
        rcases List.mem_append.1 hb with hb | hb <;> simp [hb]
      exact Tree.depth_of_mem_bindingsAlong hmem
    have hcons : ∀ (m : Node) (ns : List Node), (Location.chain (m :: ns)).take (n + 1) =
      ⟨m, ns⟩ :: (Location.chain ns).take n := fun _ _ => rfl
    by_cases hlive : (Tree.read (u ++ v)).isLive ⟨tw.bare.node, tw.bare.outer⟩ = true
    · -- the names around the list are behind it
      have hnone := tw.unfinishedAlong_of_isLive hlive (n + 1)
      have hrest := hnone
      rw [hcons, hcons, Tree.unfinishedAlong_cons, Tree.unfinishedAlong_cons,
        List.append_eq_nil_iff, List.append_eq_nil_iff] at hrest
      rw [hrest.1.2, List.append_nil] at hbare
      rw [hrest.2.2, List.append_nil] at hfull
      rw [hnone.1, hnone.2, hcons, hcons, Tree.bindingsAlong_cons, Tree.bindingsAlong_cons, hsame,
        if_pos hlive, if_pos hlive, Nat.add_comm 0, Nat.add_comm 0, Tree.bindingsAlong_add,
        Tree.bindingsAlong_add, hbare, hfull, tw.bindingsAt_node]
      refine ⟨(Tree.read (u ++ v)).bindingsAt tw.bare.token (byteLength u) 0
        ⟨tw.bare.node, tw.bare.outer⟩, before ++ after, hdepth, ?_, ?_⟩ <;> rw [List.append_nil]
    · -- the list counts as no function in either tree
      have hbareLive := Bool.eq_false_iff.2 hlive
      have hfullLive := hsame.trans hbareLive
      refine ⟨before, after, fun b hb => hdepth b (List.mem_append_right _ hb), ?_, ?_⟩
      · rw [hcons, Tree.bindingsAlong_cons, Tree.unfinishedAlong_cons,
          Tree.countP_isLiveFunction hbareLive, if_neg hlive, if_neg hlive, Binding.map_deepen_zero]
        exact hbare
      · rw [hcons, Tree.bindingsAlong_cons, Tree.unfinishedAlong_cons,
          Tree.countP_isLiveFunction hfullLive, hfullLive, Binding.map_deepen_zero]
        exact hfull

end Twins

/-! ### The two cursors -/

/-- The cursor inside a blank is at its token. -/
theorem CutsBlank.locate_eq_ok {u v : List Char} {before : List Lexeme} {x y : List Char}
    {after : List Lexeme} (h : CutsBlank u v before x y after) (w : Place (u ++ v) (byteLength u))
    (config : Config) : Cursor.locate (Tree.read (u ++ v)) config (byteLength u) =
      .ok (Cursor.ofLocation (Tree.read (u ++ v)) config w.token (byteLength u)) := by
  obtain ⟨as, leaf, bs, hsplits⟩ := Tree.exists_splits h.lex_eq
  have hleaf : leaf ∈ (Tree.read (u ++ v)).leaves := by simp [hsplits.leaves_eq]
  obtain ⟨l, hbelow, hnode, htrail⟩ := Tree.exists_below_of_mem_leaves hleaf
  have hkind : leaf.node.kind = .whitespace := List.mem_singleton.1 hsplits.isToken.kind_mem
  have hx := byteLength_pos h.left_ne_nil
  have hy := byteLength_pos h.right_ne_nil
  have hu := h.byteLength_left
  have hspan := hsplits.isToken.span_eq
  have hstart : leaf.node.span.start < byteLength u := by
    rw [hspan]
    simp only
    omega
  have hstop : byteLength u < leaf.node.span.stop := by
    rw [hspan, byteLength_append]
    simp only
    omega
  have htargets := hsplits.targets hnode htrail (Nat.le_of_lt hstart) hstop
    (.inr ⟨by simp [hkind], hstart⟩) fun heq => absurd heq (Nat.ne_of_lt hstart)
  -- both are the token over the byte at the cut
  obtain rfl : w.token = l := hsplits.eq_of_covers (Tree.mem_locations_of_below hbelow) hnode w.mem
    w.children_eq (Nat.lt_succ_self (byteLength u)) (Nat.le_of_lt hstart) hstop w.start_le w.lt_stop
  exact Cursor.locate_eq_ok (htargets.findAt_eq [] _ (List.Subset.refl _) hbelow)

/-- Bindings with the same parts before and after are told apart by the middle, or by
    how far away the last ones are. -/
theorem Binding.eq_iff_of_append_deepen {bs bs' before us us' after : List Binding} {k k' : Nat}
    (hafter : ∀ b ∈ after, ∃ d, b.depth = .within d)
    (h : bs = before ++ us ++ after.map (deepen k))
    (h' : bs' = before ++ us' ++ after.map (deepen k')) :
    bs = bs' ↔ us = us' ∧ (k = k' ∨ after = []) := by
  rw [h, h', List.append_assoc, List.append_assoc, List.append_cancel_left_eq]
  constructor
  · intro heq
    obtain ⟨hus, hmap⟩ := List.append_inj' heq (by rw [List.length_map, List.length_map])
    refine ⟨hus, ?_⟩
    cases after with
    | nil => exact .inr rfl
    | cons b bs =>
      obtain ⟨d, hd⟩ := hafter b List.mem_cons_self
      have hdepth := congrArg Binding.depth (List.cons.inj hmap).1
      simp only [deepen, hd, Depth.within.injEq, Nat.add_right_cancel_iff] at hdepth
      exact .inl hdepth
  · rintro ⟨rfl, rfl | rfl⟩ <;> rfl

namespace Cursor

/-- Strictly inside a blank, the trees without the default placeholder and with it are twins, and
    the cursor is in the token at the place in both. -/
theorem exists_twins_inSource {config : Config}
    (hconfig : config.placeholder = ({} : Config).placeholder) {cs : List Char} {offset : Nat}
    (hoffset : isBoundary cs offset = true) {blank : Node} (hblank : blank ∈ (Tree.read cs).nodes)
    (hkind : blank.kind = .whitespace) (hstart : blank.span.start < offset)
    (hstop : offset < blank.span.stop) :
    ∃ (u v : List Char) (tw : Twins u config.placeholder.toList v), u ++ v = cs ∧
      byteLength u = offset ∧
      locate (Tree.read (u ++ v)) config (byteLength u) =
        .ok (ofLocation (Tree.read (u ++ v)) config tw.bare.token (byteLength u)) ∧
      inSource config (u ++ v) (byteLength u) =
        .ok (Tree.read (u ++ (config.placeholder.toList ++ v)),
          ofLocation (Tree.read (u ++ (config.placeholder.toList ++ v))) config tw.full.token
            (byteLength u)) := by
  have hp := Config.insertable_of_placeholder_eq hconfig
  obtain ⟨⟨u, v⟩, hsplit⟩ := Option.isSome_iff_exists.1 hoffset
  obtain ⟨rfl, rfl⟩ := append_of_splitAtByte? hsplit
  obtain ⟨_, _, _, _, hcuts⟩ := exists_cutsBlank hblank hkind hstart hstop
  obtain ⟨tw⟩ := hcuts.exists_twins hp.ordinary hp.ne_nil
  obtain ⟨l, hl⟩ := Tree.exists_holds_read hp.ordinary hp.ne_nil u v
  -- the token of the word is the one over the placeholder
  obtain rfl : tw.full.token = l := by
    refine hl.unique _ tw.full.mem tw.full.children_eq ?_ ?_ <;> rw [tw.span_full]
  exact ⟨u, v, tw, rfl, rfl, hcuts.locate_eq_ok tw.bare config, inSource_eq_ok hl⟩

/-- Strictly inside a blank of a text, there is a cursor without the default
    placeholder, and one with it. The local names that both find, in order, are the
    same apart from those that are unfinished at each of them, and from the innermost
    list, behind which the names further outside are: it may be a function for one of
    them only. At a placeholder that is not deactivated, no name is unfinished. -/
theorem collect_inSource_eq_iff {config : Config}
    (hconfig : config.placeholder = ({} : Config).placeholder) {cs : List Char} {offset : Nat}
    (hoffset : isBoundary cs offset = true) {blank : Node} (hblank : blank ∈ (Tree.read cs).nodes)
    (hkind : blank.kind = .whitespace) (hstart : blank.span.start < offset)
    (hstop : offset < blank.span.stop) (summaries : List Summary) :
    let t := Tree.read cs
    ∃ c t' c', locate t config offset = .ok c ∧ inSource config cs offset = .ok (t', c') ∧
      let names := t.collect config c summaries .lexical
      let names' := t'.collect config c' summaries .lexical
      let waiting := t.unfinished c.location offset config.maxTraversalDepth
      let waiting' := t'.unfinished c'.location offset config.maxTraversalDepth
      let functions := t.innermostFunctions c.location
      let functions' := t'.innermostFunctions c'.location
      (c'.location.IsActive → waiting' = []) ∧ ∃ before after : List Binding,
        names = before ++ waiting ++ after.map (Binding.deepen functions) ∧
        names' = before ++ waiting' ++ after.map (Binding.deepen functions') ∧
        (names = names' ↔ waiting = waiting' ∧ (functions = functions' ∨ after = [])) := by
  intro t
  obtain ⟨u, v, tw, rfl, rfl, hlocate, hinsert⟩ :=
    exists_twins_inSource hconfig hoffset hblank hkind hstart hstop
  have hform : tw.full.token.node.kind.isForm = true := by
    rw [tw.kind_full]
    exact Kind.isForm_of_isWord (isWord_atomKind _)
  obtain ⟨before, after, hafter, hbare, hfull⟩ := tw.exists_lexicalBindings config.maxTraversalDepth
  refine ⟨_, _, _, hlocate, hinsert,
    fun hactive => tw.full.unfinished_eq_nil_of_isActive hform hactive _,
    before, after, hbare, hfull, Binding.eq_iff_of_append_deepen hafter hbare hfull⟩

/-- In the vector of a `:let`, `z` waits for its value. The names before it and those
    of the function around the comprehension are found by both. -/
theorem collect_inSource_eq_iff_comprehension :
    let cs := "(defn f [q] (for [x :in xs :let [y 1 z   ]] b))".toList
    let t := Tree.read cs
    isBoundary cs 39 = true ∧
    (∃ blank ∈ t.nodes, blank.kind = .whitespace ∧ blank.span.start < 39 ∧
      39 < blank.span.stop) ∧
    ∃ c t' c', locate t {} 39 = .ok c ∧ inSource {} cs 39 = .ok (t', c') ∧
      (t.collect {} c [] .lexical).map (·.name) = ["x", "y", "z", "q"] ∧
      (t'.collect {} c' [] .lexical).map (·.name) = ["x", "y", "q"] ∧
      ∃ before after : List Binding,
        t.collect {} c [] .lexical = before ++ t.unfinished c.location 39 20 ++
          after.map (Binding.deepen (t.innermostFunctions c.location)) ∧
        t'.collect {} c' [] .lexical = before ++ t'.unfinished c'.location 39 20 ++
          after.map (Binding.deepen (t'.innermostFunctions c'.location)) := by
  intro cs t
  have hoffset : isBoundary cs 39 = true := by decide
  have hblank : ∃ blank ∈ t.nodes, blank.kind = .whitespace ∧ blank.span.start < 39 ∧
      39 < blank.span.stop := by decide +kernel
  have hbare : (locate t {} 39).toOption.map
      (fun c => (t.collect {} c [] .lexical).map (·.name)) = some ["x", "y", "z", "q"] := by
    decide +kernel
  have hfull : (inSource {} cs 39).toOption.map
      (fun x => (x.1.collect {} x.2 [] .lexical).map (·.name)) = some ["x", "y", "q"] := by
    decide +kernel
  obtain ⟨blank, hmem, hkind, hstart, hstop⟩ := hblank
  obtain ⟨c, t', c', hc, hc', -, before, after, hnames, hnames', -⟩ :=
    collect_inSource_eq_iff rfl hoffset hmem hkind hstart hstop []
  rw [hc] at hbare
  rw [hc'] at hfull
  exact ⟨hoffset, ⟨blank, hmem, hkind, hstart, hstop⟩, c, t', c', hc, hc', Option.some.inj hbare,
    Option.some.inj hfull, before, after, hnames, hnames'⟩

/-- In the place of its own value, the name that a `let` binds can be used without the
    placeholder, but not with it. -/
theorem collect_at_own_value :
    let cs := "(let [a   ] b)".toList
    let t := Tree.read cs
    ({} : Config).containsPlaceholder cs = false ∧ isBoundary cs 8 = true ∧
    (∃ blank ∈ t.nodes, blank.kind = .whitespace ∧ blank.span.start < 8 ∧ 8 < blank.span.stop) ∧
    (locate t {} 8).toOption.map (fun c => (t.collect {} c [] .lexical).map fun b =>
      (b.name, b.kind, b.depth)) = some [("a", .letBinding, .within 0)] ∧
    (inSource {} cs 8).toOption.map (fun x => (x.1.collect {} x.2 [] .lexical).map fun b =>
      (b.name, b.kind, b.depth)) = some [] := by
  decide +kernel

/-- At the head of a list that is a function without the placeholder, the names around
    the list are one function further away without it. -/
example :
    let cs := "(let [x 1] (  fn [y] y))".toList
    let t := Tree.read cs
    (locate t {} 13).toOption.map (fun c => (t.collect {} c [] .lexical).map fun b =>
      (b.name, b.depth)) = some [("x", .within 1)] ∧
    (inSource {} cs 13).toOption.map (fun x => (x.1.collect {} x.2 [] .lexical).map fun b =>
      (b.name, b.depth)) = some [("x", .within 0)] := by
  decide +kernel

end Cursor

end Typeahead
