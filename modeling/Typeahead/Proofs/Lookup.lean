import Typeahead.Proofs.CallSlots

/-!
# What a search finds

The search for an offset commits itself at every level, to a word that touches the
offset or else to the first child around it. In the tree of a text it still finds
what a look at the whole tree would find. Words do not stand side by side, so at most
one touches an offset. And of collections that do not hold each other at most one is
open at an offset: a collection that ends without its delimiter ends before another
delimiter or with the text, so that no word starts there.

* `findAt_path`: the search only goes into nodes around the offset;
* `findAt_root_eq`: the search passes through a node, if it and the nodes that hold it
  are around the offset and no word next to these touches it;
* `findAt?_read`: the search finds the word that touches the offset, and the innermost
  collection that is open there.
-/

namespace Typeahead

/-- Whether the node is a collection that starts before the offset and is still open
    there: it goes on after the offset, or ends there without its delimiter. -/
def Node.isOpenAt (n : Node) (offset : Nat) : Bool :=
  n.kind.isCollection && n.span.start < offset &&
    (offset < n.span.stop || (!n.isClosed && n.span.stop == offset))

/-- The innermost collection that a location is or lies in. -/
def Location.collection? (l : Location) : Option Location :=
  l.selfAndAncestors.find? (·.node.kind.isCollection)

/-- The collection at the location `l` is open at the offset, and all others that are
    open there hold it. -/
structure Tree.IsInnermostOpen (t : Tree) (offset : Nat) (l : Location) : Prop where
  mem : l ∈ t.locations
  isOpenAt : l.node.isOpenAt offset = true
  inside : ∀ m ∈ t.locations, m.node.isOpenAt offset = true → m ∈ l.selfAndAncestors

theorem Node.isOpenAt_iff {n : Node} {offset : Nat} :
    n.isOpenAt offset = true ↔ n.kind.isCollection = true ∧ n.span.start < offset ∧
      (offset < n.span.stop ∨ n.isClosed = false ∧ n.span.stop = offset) := by
  simp [isOpenAt, and_assoc]

theorem Node.isAround_iff {n : Node} {offset : Nat} (h : n.kind.isNested = true) :
    n.isAround offset = true ↔ n.span.start < offset ∧
      (offset < n.span.stop ∨ n.isClosed = false ∧ n.span.stop = offset) := by
  simp only [isAround, h, if_true, Span.contains, Bool.and_eq_true, Bool.or_eq_true,
    decide_eq_true_eq, Bool.not_eq_true', beq_iff_eq]
  exact and_congr_right fun hstart => or_congr_left (and_iff_right (Nat.le_of_lt hstart))

theorem Span.touches_iff {s : Span} {offset : Nat} :
    s.touches offset = true ↔ s.start ≤ offset ∧ offset ≤ s.stop := by
  simp [touches]

theorem Kind.isNested_of_isCollection {k : Kind} (h : k.isCollection = true) :
    k.isNested = true := by
  rw [isNested, h, Bool.true_or]

theorem Node.exists_children_eq_of_isClosed {n : Node} (h : n.isClosed = true) :
    ∃ pre z, n.children = pre ++ [z] ∧ z.kind = .closeDelim := by
  rw [isClosed] at h
  cases hlast : n.children.getLast? with
  | none => simp [hlast] at h
  | some z =>
    obtain ⟨pre, hpre⟩ := List.getLast?_eq_some_iff.1 hlast
    rw [hlast, Option.any_some, beq_iff_eq] at h
    exact ⟨pre, z, hpre, h⟩

/-- What follows a location among those around another are those around it. -/
theorem Location.eq_selfAndAncestors_of_append {k l : Location} {as bs : List Location}
    (h : k.selfAndAncestors = as ++ l :: bs) : l :: bs = l.selfAndAncestors := by
  obtain ⟨n, ns⟩ := k
  induction as generalizing n ns with
  | nil =>
    obtain ⟨rfl, rfl⟩ := List.cons.inj h
    rfl
  | cons a as ih =>
    have hrest : chain ns = as ++ l :: bs := (List.cons.inj h).2
    cases ns with
    | nil => simp [chain] at hrest
    | cons m ns => exact ih m ns hrest

/-! ### The way of the search -/

namespace Node

theorem self_mem_locations (n : Node) (above : List Node) : ⟨n, above⟩ ∈ n.locations above := by
  rw [n.locations_eq]
  exact List.mem_cons_self

mutual

/-- The search ends in the node, and all nodes with parts on its way are around the
    offset. -/
theorem findAt_path (offset : Nat) (above : List Node) : (n : Node) →
    n.findAt offset above ∈ n.locations above ∧
      ∃ path, (n.findAt offset above).selfAndAncestors = path ++ Location.chain (n :: above) ∧
        ∀ l ∈ path, l.node.kind.isNested = true → l.node.isAround offset = true
  | ⟨id, kind, span, ns⟩ => by
    rw [findAt, locations]
    cases hword : ns.find? fun c => c.kind.isWord && c.span.touches offset with
    | some w =>
      have hw : w.kind.isWord = true := by
        have h := List.find?_some hword
        rw [Bool.and_eq_true] at h
        exact h.1
      have hself := w.self_mem_locations (⟨id, kind, span, ns⟩ :: above)
      refine ⟨List.mem_cons_of_mem _
        (mem_locationsAll.2 ⟨w, List.mem_of_find?_eq_some hword, hself⟩), [_], rfl, ?_⟩
      intro l hl hnested
      rw [List.mem_singleton.1 hl] at hnested
      rw [Kind.isWord_eq_false (.inr hnested)] at hw
      cases hw
    | none =>
      cases hfound : findAround? offset (⟨id, kind, span, ns⟩ :: above) ns with
      | none => exact ⟨List.mem_cons_self, [], rfl, fun l hl => absurd hl List.not_mem_nil⟩
      | some l =>
        obtain ⟨hmem, hpath⟩ := findAround?_path offset _ ns hfound
        exact ⟨List.mem_cons_of_mem _ hmem, hpath⟩

theorem findAround?_path (offset : Nat) (above : List Node) : (ns : List Node) → ∀ {l : Location},
    findAround? offset above ns = some l → l ∈ locationsAll above ns ∧
      ∃ path, l.selfAndAncestors = path ++ Location.chain above ∧
        ∀ k ∈ path, k.node.kind.isNested = true → k.node.isAround offset = true
  | [], l, h => by
    rw [findAround?] at h
    cases h
  | n :: ns, l, h => by
    rw [findAround?] at h
    rw [locationsAll]
    split at h
    · next haround =>
      split at h
      · cases h
        obtain ⟨hmem, path, hpath, hall⟩ := findAt_path offset above n
        refine ⟨List.mem_append_left _ hmem, path ++ [⟨n, above⟩], ?_, fun k hk => ?_⟩
        · rw [hpath, List.append_assoc]
          rfl
        · rcases List.mem_append.1 hk with hk | hk
          · exact hall k hk
          · rw [List.mem_singleton.1 hk]
            exact fun _ => haround
      · next hnested =>
        cases h
        refine ⟨List.mem_append_left _ (n.self_mem_locations above), [⟨n, above⟩], rfl,
          fun k hk => ?_⟩
        rw [List.mem_singleton.1 hk]
        exact fun h => absurd h hnested
    · obtain ⟨hmem, hpath⟩ := findAround?_path offset above ns h
      exact ⟨List.mem_append_right _ hmem, hpath⟩

end

end Node

namespace Tree

variable {cs : List Char} {l : Location} {m n : Node} {offset : Nat}

theorem ne_nil_of_mem_below (hl : l ∈ (Tree.read cs).below) : cs ≠ [] := by
  obtain ⟨before, run, after, hlex, hrun⟩ := exists_run_of_mem_below hl
  rintro rfl
  simp [lex, hrun.run_ne_nil] at hlex

theorem mem_below_of_above_ne_nil (hl : l ∈ (Tree.read cs).locations) (h : l.above ≠ []) :
    l ∈ (Tree.read cs).below := by
  rw [locations_eq] at hl
  rcases List.mem_cons.1 hl with rfl | hl
  · exact absurd rfl h
  · exact hl

/-- The search goes through a node, if it and the nodes that hold it are around the
    offset, and no word next to them touches the offset. -/
theorem findAt_root_eq (hl : l ∈ (Tree.read cs).locations)
    (haround : ∀ k ∈ l.selfAndAncestors, k.above ≠ [] →
      k.node.kind.isNested = true ∧ k.node.isAround offset = true)
    (hword : ∀ p ∈ l.above, ∀ w ∈ p.children, w.kind.isWord = true →
      w.span.touches offset = false) :
    (Tree.read cs).root.findAt offset [] = l.node.findAt offset l.above := by
  obtain ⟨n, above⟩ := l
  -- the search reaches the parent, and goes on from there
  induction above generalizing n with
  | nil => rw [eq_root_of_mem_locations hl]
  | cons p above ih =>
    obtain ⟨hparent, hn⟩ := parent_mem_locations hl rfl
    obtain ⟨hnested, hnode⟩ := haround ⟨n, p :: above⟩ List.mem_cons_self (List.cons_ne_nil _ _)
    have hcs : cs ≠ [] := ne_nil_of_mem_below (below_of_mem_children hparent hn)
    obtain ⟨pre, post, hchildren⟩ := List.append_of_mem hn
    obtain ⟨-, hpre, -⟩ := siblings_of_children_eq hcs hl rfl hchildren
    have hnone : (p.children.find? fun c => c.kind.isWord && c.span.touches offset) = none := by
      rw [List.find?_eq_none]
      intro w hw
      cases hk : w.kind.isWord with
      | false => simp
      | true => simp [hword p List.mem_cons_self w hw hk]
    rw [ih p hparent (fun k hk => haround k (List.mem_cons_of_mem _ hk))
      fun q hq => hword q (List.mem_cons_of_mem _ hq)]
    refine Node.findAt_eq_findAt_child hnone hchildren (fun m hm => ?_) hnested hnode
    exact Node.isAround_of_stop_lt
      (Nat.lt_of_le_of_lt (hpre m hm) ((Node.isAround_iff hnested).1 hnode).1)

/-! ### Words and open collections -/

/-- A node without parts holds only itself. -/
theorem eq_of_mem_preorder (hn : n ∈ (Tree.read cs).nodes)
    (hkind : n.kind ≠ .root ∧ n.kind.isNested = false) (hm : m ∈ n.preorder) : m = n :=
  Node.eq_of_mem_preorder (children_eq_nil hn hkind.1 hkind.2) hm

theorem eq_of_node_eq {k : Location} (hl : l ∈ (Tree.read cs).locations)
    (hk : k ∈ (Tree.read cs).locations) (h : l.node = k.node) : l = k := by
  have hid := locationOf_read hl
  rw [h, locationOf_read hk] at hid
  exact (Except.ok.inj hid).symm

theorem exists_splits_of_mem {leaf : Leaf} (hleaf : leaf ∈ (Tree.read cs).leaves) :
    ∃ before k after as bs, Splits cs before k after as leaf bs := by
  obtain ⟨as, bs, hleaves⟩ := List.append_of_mem hleaf
  have htokens := tokens_leaves_read cs
  rw [hleaves] at htokens
  obtain ⟨before, rest, hlex, hbefore, hrest⟩ := htokens.append_right
  rw [Nat.zero_add] at hrest
  cases hrest with
  | cons htoken hafter => exact ⟨before, _, _, as, bs, hlex, hleaves, hbefore, htoken, hafter⟩

/-- No word begins with what ends a word. -/
theorem Splits.not_endsWord {before after : List Lexeme} {k : Lexeme} {as bs : List Leaf}
    {leaf : Leaf} (h : Splits cs before k after as leaf bs)
    (hword : leaf.node.kind.isWord = true) : ¬ EndsWord k.text := by
  have hleaf : leaf ∈ (Tree.read cs).leaves := by simp [h.leaves_eq]
  obtain ⟨l, hl, hnode, -⟩ := exists_location_of_mem_leaves hleaf
  have hchars := isTerminator_of_mem_chars (hnode ▸ mem_nodes_of_mem_locations hl) hword
  have hk : k ∈ lex cs := by simp [h.lex_eq]
  obtain ⟨c, s, htext⟩ := List.exists_cons_of_ne_nil (sound_of_mem_lex hk).text_ne_nil
  rw [h.chars_eq, htext] at hchars
  rw [htext]
  intro hends
  have hc := hchars c List.mem_cons_self
  rw [hends c rfl] at hc
  cases hc

/-- Different words stand apart. -/
theorem isWord_apart (hm : m ∈ (Tree.read cs).nodes) (hn : n ∈ (Tree.read cs).nodes)
    (hmword : m.kind.isWord = true) (hnword : n.kind.isWord = true) (hne : m ≠ n) :
    m.span.stop < n.span.start ∨ n.span.stop < m.span.start := by
  obtain ⟨a, ha, rfl⟩ := exists_leaf_of_isWord hm hmword
  obtain ⟨b, hb, rfl⟩ := exists_leaf_of_isWord hn hnword
  obtain ⟨_, _, _, _, _, hsplit⟩ := exists_splits_of_mem ha
  obtain ⟨_, _, _, _, _, hsplit'⟩ := exists_splits_of_mem hb
  rcases hsplit.cases_of_mem hb with rfl | ⟨hbefore, -⟩ | hafter
  · exact absurd rfl hne
  · exact .inr (hsplit.stop_lt_of_isWord (hsplit.not_endsWord hmword) hbefore hnword)
  rcases hsplit'.cases_of_mem ha with rfl | ⟨hbefore, -⟩ | hafter'
  · exact absurd rfl hne
  · exact .inl (hsplit'.stop_lt_of_isWord (hsplit'.not_endsWord hnword) hbefore hmword)
  · have hcs : cs ≠ [] := hsplit.ne_nil
    have hlt := lt_stop_read hcs a.node hm
    have hlt' := lt_stop_read hcs b.node hn
    omega

/-- At most one word touches an offset. -/
theorem eq_of_isWord_of_touches {k : Location} (hl : l ∈ (Tree.read cs).locations)
    (hk : k ∈ (Tree.read cs).locations) (hlword : l.node.kind.isWord = true)
    (hkword : k.node.kind.isWord = true) (hltouches : l.node.span.touches offset = true)
    (hktouches : k.node.span.touches offset = true) : l = k := by
  refine eq_of_node_eq hl hk ?_
  by_contra hne
  have hapart := isWord_apart (mem_nodes_of_mem_locations hl) (mem_nodes_of_mem_locations hk)
    hlword hkword hne
  rw [Span.touches_iff] at hltouches hktouches
  omega

/-- Two tokens that start at the same offset are the same. -/
theorem eq_of_start_eq {a b : Leaf} (ha : a ∈ (Tree.read cs).leaves)
    (hb : b ∈ (Tree.read cs).leaves) (h : a.node.span.start = b.node.span.start) : a = b := by
  obtain ⟨_, _, _, _, _, hsplit⟩ := exists_splits_of_mem ha
  have hlt : ∀ x ∈ (Tree.read cs).leaves, x.node.span.start < x.node.span.stop := by
    intro x hx
    obtain ⟨k, hk, hnode, -⟩ := exists_location_of_mem_leaves hx
    exact lt_stop_read hsplit.ne_nil _ (hnode ▸ mem_nodes_of_mem_locations hk)
  rcases hsplit.cases_of_mem hb with hab | ⟨-, hbefore⟩ | hafter
  · exact hab.symm
  · have := hlt b hb
    omega
  · have := hlt a ha
    omega

theorem isNested_of_mem_ancestors {k : Location} (hl : l ∈ (Tree.read cs).locations)
    (hk : k ∈ l.ancestors) (hroot : k.above ≠ []) : k.node.kind.isNested = true := by
  obtain ⟨path, habove⟩ := Location.exists_of_mem_chain hk
  have hbelow := mem_below_of_above_ne_nil
    (selfAndAncestors_subset_locations hl (List.mem_cons_of_mem _ hk)) hroot
  obtain ⟨c, hc, -⟩ := exists_child_on_path (ne_nil_of_mem_below hbelow) hl habove
  exact isNested_of_children_ne_nil hbelow (List.ne_nil_of_mem hc)

/-- A node that is not the root starts before the words inside it. -/
theorem start_lt_of_isWord {k : Location} (hl : l ∈ (Tree.read cs).locations)
    (hword : l.node.kind.isWord = true) (hk : k ∈ l.ancestors) (hroot : k.above ≠ []) :
    k.node.span.start < l.node.span.start := by
  have hnested := isNested_of_mem_ancestors hl hk hroot
  have hne : k.node.kind ≠ .root := by
    intro hkind
    rw [hkind] at hnested
    cases hnested
  obtain ⟨leaf, hleaf, hleafnode⟩ := exists_leaf_of_isWord (mem_nodes_of_mem_locations hl) hword
  obtain ⟨l', hl', hnode, htrail⟩ := exists_location_of_mem_leaves hleaf
  obtain rfl : l' = l := eq_of_node_eq hl' hl (hnode.trans hleafnode)
  obtain ⟨_, _, _, _, _, hsplit⟩ := exists_splits_of_mem hleaf
  have hkind : leaf.node.kind ≠ .openDelim ∧ leaf.node.kind ≠ .sigil := by
    rw [← hnode]
    constructor <;> rintro hkind <;> rw [hkind] at hword <;> cases hword
  have hinside := (hsplit.isToken.inside.resolve_left hkind.1).resolve_left hkind.2
  have hheading : k.node.heading ∈ leaf.trail :=
    htrail ▸ List.mem_map_of_mem (Location.mem_above_of_mem_ancestors hk)
  rw [hnode, hsplit.isToken.span_eq]
  exact (hinside _ hheading).resolve_left hne

theorem mem_preorder_of_mem_selfAndAncestors {k : Location} (hl : l ∈ (Tree.read cs).locations)
    (hk : k ∈ l.selfAndAncestors) : l.node ∈ k.node.preorder := by
  rcases List.mem_cons.1 hk with rfl | hk
  · exact k.node.mem_preorder_self
  · exact mem_preorder_of_mem_above hl (Location.mem_above_of_mem_ancestors hk)

/-- A collection that has its delimiter goes on after all else inside it. -/
theorem stop_lt_of_isClosed {path outer : List Node} (hcs : cs ≠ [])
    (hl : l ∈ (Tree.read cs).locations) (hkind : l.node.kind ≠ .closeDelim)
    (habove : l.above = path ++ n :: outer) (hclosed : n.isClosed = true) :
    l.node.span.stop < n.span.stop := by
  obtain ⟨c, hc, hchain, -, -, -, hstop⟩ := exists_child_on_path hcs hl habove
  obtain ⟨pre, z, hchildren, hclose⟩ := Node.exists_children_eq_of_isClosed hclosed
  have hcl := selfAndAncestors_subset_locations hl hchain
  have hzl : ⟨z, n :: outer⟩ ∈ (Tree.read cs).locations :=
    children_subset_locations (parent_mem_locations hcl rfl).1
      (List.mem_map.2 ⟨z, by simp [hchildren], rfl⟩)
  rw [hchildren] at hc
  rcases List.mem_append.1 hc with hc | hc
  · obtain ⟨-, hpre, -⟩ := siblings_of_children_eq hcs hzl rfl hchildren
    calc l.node.span.stop ≤ c.span.stop := hstop
      _ ≤ z.span.start := hpre c hc
      _ < z.span.stop := lt_stop_read hcs z (mem_nodes_of_mem_locations hzl)
      _ ≤ n.span.stop := stop_le_of_mem_above hcs hzl List.mem_cons_self
  · -- nothing lies inside the delimiter
    rw [List.mem_singleton] at hc
    have hz : z.kind ≠ .root ∧ z.kind.isNested = false := by
      rw [hclose]
      decide
    have hself := eq_of_mem_preorder (mem_nodes_of_mem_locations hzl) hz
      (hc ▸ mem_preorder_of_mem_selfAndAncestors hl hchain)
    rw [hself] at hkind
    exact absurd hclose hkind

/-- The nodes that hold a node and start before the offset are around it, if the node
    does not end before the offset. -/
theorem isAround_of_mem_ancestors {k : Location} (hl : l ∈ (Tree.read cs).locations)
    (hkind : l.node.kind ≠ .closeDelim) (hk : k ∈ l.ancestors) (hroot : k.above ≠ [])
    (hstart : k.node.span.start < offset) (hstop : offset ≤ l.node.span.stop) :
    k.node.kind.isNested = true ∧ k.node.isAround offset = true := by
  obtain ⟨path, habove⟩ := Location.exists_of_mem_chain hk
  have hcs : cs ≠ [] := ne_nil_of_mem_below (mem_below_of_above_ne_nil hl (by simp [habove]))
  have hnested := isNested_of_mem_ancestors hl hk hroot
  refine ⟨hnested, (Node.isAround_iff hnested).2 ⟨hstart, ?_⟩⟩
  have hle := stop_le_of_mem_above hcs hl (Location.mem_above_of_mem_ancestors hk)
  cases hclosed : k.node.isClosed with
  | true => exact .inl (Nat.lt_of_le_of_lt hstop (stop_lt_of_isClosed hcs hl hkind habove hclosed))
  | false =>
    rcases Nat.lt_or_eq_of_le (Nat.le_trans hstop hle) with hlt | heq
    · exact .inl hlt
    · exact .inr ⟨rfl, heq.symm⟩

/-- No word starts where a collection ends without its delimiter. -/
theorem start_ne_of_unclosed (hl : l ∈ (Tree.read cs).locations)
    (hcollection : l.node.kind.isCollection = true) (hopen : l.node.isClosed = false)
    (hn : n ∈ (Tree.read cs).nodes) (hword : n.kind.isWord = true) :
    n.span.start ≠ l.node.span.stop := by
  intro hstart
  obtain ⟨leaf, hleaf, rfl⟩ := exists_leaf_of_isWord hn hword
  obtain ⟨_, _, _, _, _, hsplit⟩ := exists_splits_of_mem hleaf
  have hcs := hsplit.ne_nil
  rcases unclosed_cut_read hl hcollection hopen with hend | ⟨a, ha, c, hc, hclose, hcut, -⟩
  · -- the word would go on after the end of the text
    have hlt := lt_stop_read hcs leaf.node hn
    have hle := (span_within hcs (Node.mem_preorder_self _) hn).2
    rw [span_root_read hcs] at hle
    rw [length, source_read] at hend
    dsimp only at hle
    omega
  · -- the word would be the delimiter that cuts the collection off
    obtain ⟨k, hk, rfl⟩ : ∃ k ∈ l.ancestors, k.node = a := exists_mem_chain ha
    have hcl := children_subset_locations
      (selfAndAncestors_subset_locations hl (List.mem_cons_of_mem _ hk))
      (List.mem_map.2 ⟨c, hc, rfl⟩)
    obtain ⟨delim, hdelim, rfl⟩ := exists_leaf_of_mem_nodes (mem_nodes_of_mem_locations hcl)
      (by simp [hclose]) (by simp [hclose, Kind.isNested, Kind.isCollection])
    obtain rfl := eq_of_start_eq hleaf hdelim (hstart.trans hcut.symm)
    rw [hclose] at hword
    cases hword

/-- No word next to an open collection, or next to what holds it, touches the offset. -/
theorem touches_eq_false_of_isOpenAt {p w : Node} (hl : l ∈ (Tree.read cs).locations)
    (hopen : l.node.isOpenAt offset = true) (hp : p ∈ l.above) (hw : w ∈ p.children)
    (hword : w.kind.isWord = true) : w.span.touches offset = false := by
  obtain ⟨hcollection, hstart, hstop⟩ := Node.isOpenAt_iff.1 hopen
  obtain ⟨path, outer, habove⟩ := List.append_of_mem hp
  have hcs : cs ≠ [] := ne_nil_of_mem_below
    (mem_below_of_above_ne_nil hl (List.ne_nil_of_mem hp))
  obtain ⟨c, hc, hchain, -, -, hcstart, hcstop⟩ := exists_child_on_path hcs hl habove
  have hcl := selfAndAncestors_subset_locations hl hchain
  have hwl : ⟨w, p :: outer⟩ ∈ (Tree.read cs).locations :=
    children_subset_locations (parent_mem_locations hcl rfl).1 (List.mem_map.2 ⟨w, hw, rfl⟩)
  rw [Bool.eq_false_iff, Ne, Span.touches_iff]
  rintro ⟨hle, hge⟩
  obtain ⟨pre, post, hchildren⟩ := List.append_of_mem hc
  obtain ⟨-, hpre, hpost⟩ := siblings_of_children_eq hcs hcl rfl hchildren
  rw [hchildren, List.mem_append, List.mem_cons] at hw
  rcases hw with hw | rfl | hw
  · -- a word before the collection ends before the offset
    have hbefore : w.span.stop ≤ c.span.start := hpre w hw
    omega
  · -- a word holds no collection
    have hself : l.node = w := eq_of_mem_preorder (mem_nodes_of_mem_locations hwl)
      (Kind.ne_root_of_isWord hword) (mem_preorder_of_mem_selfAndAncestors hl hchain)
    have hnested := Kind.isNested_of_isCollection (hself ▸ hcollection)
    rw [(Kind.ne_root_of_isWord hword).2] at hnested
    cases hnested
  · have hafter : c.span.stop ≤ w.span.start := hpost w hw
    rcases hstop with hlt | ⟨hunclosed, heq⟩
    · omega
    · exact start_ne_of_unclosed hl hcollection hunclosed (mem_nodes_of_mem_locations hwl) hword
        (Nat.le_antisymm (heq ▸ hle) (Nat.le_trans hcstop hafter))

/-! ### The result of the search -/

/-- The search ends in the word that touches the offset. -/
theorem findAt_root_eq_of_isWord {w : Location} (hw : w ∈ (Tree.read cs).locations)
    (hword : w.node.kind.isWord = true) (htouches : w.node.span.touches offset = true) :
    (Tree.read cs).root.findAt offset [] = w := by
  obtain ⟨w, above⟩ := w
  obtain ⟨hle, hge⟩ := Span.touches_iff.1 htouches
  have hunique {v q : Node} {outer : List Node} (hv : v ∈ q.children)
      (hq : ⟨q, outer⟩ ∈ (Tree.read cs).locations) (hvword : v.kind.isWord = true)
      (hvtouches : v.span.touches offset = true) : (⟨v, q :: outer⟩ : Location) = ⟨w, above⟩ :=
    eq_of_isWord_of_touches (children_subset_locations hq (List.mem_map.2 ⟨v, hv, rfl⟩)) hw
      hvword hword hvtouches htouches
  cases above with
  | nil =>
    obtain rfl := eq_root_of_mem_locations hw
    exact absurd (orderly_read cs).1 (Kind.ne_root_of_isWord hword).1
  | cons p above =>
    obtain ⟨hparent, hchild⟩ := parent_mem_locations hw rfl
    rw [findAt_root_eq hparent]
    · -- of the parent's children only the word itself can be found
      obtain ⟨v, hfind⟩ : ∃ v, (p.children.find? fun c =>
          c.kind.isWord && c.span.touches offset) = some v := by
        rw [← Option.isSome_iff_exists, List.find?_isSome]
        exact ⟨w, hchild, by rw [hword, htouches]; rfl⟩
      have hv := List.find?_some hfind
      rw [Bool.and_eq_true] at hv
      rw [Node.findAt_of_find?_eq_some above hfind]
      exact hunique (List.mem_of_find?_eq_some hfind) hparent hv.1 hv.2
    · intro k hk hne
      have hstart := Nat.lt_of_lt_of_le (start_lt_of_isWord hw hword hk hne) hle
      refine isAround_of_mem_ancestors hw (fun hkind => ?_) hk hne hstart hge
      rw [hkind] at hword
      cases hword
    · -- a word further out that touches the offset would be a second one
      intro q hq v hv hvword
      obtain ⟨k, hk, rfl⟩ : ∃ k ∈ Location.chain above, k.node = q := exists_mem_chain hq
      rw [Bool.eq_false_iff]
      intro hvtouches
      have hkl := selfAndAncestors_subset_locations hparent (List.mem_cons_of_mem _ hk)
      have heq := congrArg (·.above.length) (hunique hv hkl hvword hvtouches)
      obtain ⟨as, rfl⟩ := Location.exists_of_mem_chain hk
      simp at heq
      omega

/-- The search ends in every collection that is open at the offset. -/
theorem mem_selfAndAncestors_findAt (hl : l ∈ (Tree.read cs).locations)
    (hopen : l.node.isOpenAt offset = true) :
    l ∈ ((Tree.read cs).root.findAt offset []).selfAndAncestors := by
  obtain ⟨hcollection, hstart, hstop⟩ := Node.isOpenAt_iff.1 hopen
  have hnested := Kind.isNested_of_isCollection hcollection
  rw [findAt_root_eq hl]
  · obtain ⟨-, path, hpath, -⟩ := l.node.findAt_path offset l.above
    rw [hpath]
    exact List.mem_append_right _ List.mem_cons_self
  · intro k hk hne
    rcases List.mem_cons.1 hk with rfl | hk
    · exact ⟨hnested, (Node.isAround_iff hnested).2 ⟨hstart, hstop⟩⟩
    · have hcs := ne_nil_of_mem_below (mem_below_of_above_ne_nil
        (selfAndAncestors_subset_locations hl (List.mem_cons_of_mem _ hk)) hne)
      have hwithin := (span_within hcs
        (mem_nodes_of_mem_above hl
          (List.mem_cons_of_mem _ (Location.mem_above_of_mem_ancestors hk)))
        (mem_preorder_of_mem_selfAndAncestors hl (List.mem_cons_of_mem _ hk))).1
      refine isAround_of_mem_ancestors hl ?_ hk hne (Nat.lt_of_le_of_lt hwithin hstart) ?_
      · rintro hkind
        simp [hkind, Kind.isCollection] at hcollection
      · omega
  · intro p hp w hw hword
    exact touches_eq_false_of_isOpenAt hl hopen hp hw hword

/-- Every collection that the search ends in is open at the offset. -/
theorem isOpenAt_of_mem_selfAndAncestors
    (hl : l ∈ ((Tree.read cs).root.findAt offset []).selfAndAncestors)
    (hcollection : l.node.kind.isCollection = true) : l.node.isOpenAt offset = true := by
  obtain ⟨-, path, hpath, haround⟩ := (Tree.read cs).root.findAt_path offset []
  have hnested := Kind.isNested_of_isCollection hcollection
  rw [hpath] at hl
  rcases List.mem_append.1 hl with hl | hl
  · exact Node.isOpenAt_iff.2
      ⟨hcollection, (Node.isAround_iff hnested).1 (haround l hl hnested)⟩
  · rw [List.mem_singleton.1 hl, (orderly_read cs).1] at hcollection
    cases hcollection

/-- A search in the tree of a text always ends. It ends in the only word that touches
    the offset, if there is one, and in any case in the innermost collection that is
    open at the offset, if there is one. -/
theorem findAt?_read (hoffset : offset ≤ byteLength cs) :
    ∃ l ∈ (Tree.read cs).locations, (Tree.read cs).findAt? offset = some l ∧
      (∀ w ∈ (Tree.read cs).locations, w.node.kind.isWord = true →
        w.node.span.touches offset = true → w = l) ∧
      (∀ c, l.collection? = some c → (Tree.read cs).IsInnermostOpen offset c) ∧
      (l.collection? = none →
        ∀ m ∈ (Tree.read cs).locations, m.node.isOpenAt offset = false) := by
  have hmem : (Tree.read cs).root.findAt offset [] ∈ (Tree.read cs).locations :=
    ((Tree.read cs).root.findAt_path offset []).1
  refine ⟨_, hmem, ?_, ?_, ?_, ?_⟩
  · rw [findAt?, if_pos (by rwa [length, source_read])]
  · intro w hw hword htouches
    exact (findAt_root_eq_of_isWord hw hword htouches).symm
  · intro c hc
    obtain ⟨hcollection, as, bs, hchain, has⟩ := List.find?_eq_some_iff_append.1 hc
    have hcmem : c ∈ ((Tree.read cs).root.findAt offset []).selfAndAncestors := by simp [hchain]
    refine ⟨selfAndAncestors_subset_locations hmem hcmem,
      isOpenAt_of_mem_selfAndAncestors hcmem hcollection, fun m hm hopen => ?_⟩
    have hmchain := mem_selfAndAncestors_findAt hm hopen
    rw [hchain] at hmchain
    rcases List.mem_append.1 hmchain with hbefore | hafter
    · have hnot := has m hbefore
      rw [(Node.isOpenAt_iff.1 hopen).1] at hnot
      cases hnot
    · rwa [Location.eq_selfAndAncestors_of_append hchain] at hafter
  · intro hnone m hm
    rw [Bool.eq_false_iff]
    intro hopen
    have hmchain := mem_selfAndAncestors_findAt hm hopen
    exact List.find?_eq_none.1 hnone m hmchain (Node.isOpenAt_iff.1 hopen).1

/-- Between a word and the delimiter that cuts its vector off, the search ends in the
    word, and the vector is the innermost open collection. -/
theorem findAt?_read_cut :
    let cs := "(f [x y) z".toList
    7 ≤ byteLength cs ∧ ∃ l ∈ (Tree.read cs).locations, (Tree.read cs).findAt? 7 = some l ∧
      (Tree.read cs).chars l.node = ['y'] ∧
      ∃ c, l.collection? = some c ∧ c.node.kind = .vector ∧ c.node.span = ⟨3, 7⟩ ∧
        (Tree.read cs).IsInnermostOpen 7 c := by
  intro cs
  have hoffset : 7 ≤ byteLength cs := by decide
  obtain ⟨l, hl, hfind, -, hcollection, -⟩ := findAt?_read hoffset
  have htext : ((Tree.read cs).findAt? 7).map (fun l => (Tree.read cs).chars l.node) =
      some ['y'] := by decide +kernel
  have hshape : (((Tree.read cs).findAt? 7).bind Location.collection?).map
      (fun c => (c.node.kind, c.node.span)) = some (.vector, ⟨3, 7⟩) := by decide +kernel
  rw [hfind] at htext hshape
  obtain ⟨c, hc, hnode⟩ := Option.map_eq_some_iff.1 hshape
  obtain ⟨hkind, hspan⟩ := Prod.mk.inj hnode
  exact ⟨hoffset, l, hl, hfind, Option.some.inj htext, c, hc, hkind, hspan, hcollection c hc⟩

end Tree

end Typeahead
