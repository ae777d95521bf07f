import Typeahead.Proofs.Inertness
import Typeahead.Scope.Lexical

/-!
# Inner names shadow outer ones

The local names at a cursor come from the lists around it, from the inside out,
and a scope keeps the first binding of every name. So a name is bound by the
innermost list that introduces it (`Tree.Introduces`), and only the functions
between the cursor and that list count for its depth.

* `Scope.get?_ofList`: a scope without a limit binds a name as its first binding;
* `Tree.mem_boundNames_iff`: which symbols a pattern binds;
* `Tree.isInert_eq_of_isNested`: the text does not mislead about forms with parts;
* `Tree.scope_read_innermost`: the local scope at a cursor.
-/

namespace Typeahead

/-! ### Scopes without a limit -/

namespace Scope

variable {s : Scope}

theorem contains_eq_isSome_get? (s : Scope) (name : String) :
    s.contains name = (s.get? name).isSome :=
  Bool.eq_iff_iff.2 (List.any_eq_true.trans List.find?_isSome.symm)

theorem limit_insert (s : Scope) (b : Binding) : (s.insert b).limit = s.limit := by
  rw [insert]
  split <;> rfl

/-- A scope without a limit takes a binding if and only if it does not bind the
    name yet. -/
theorem insert_eq (hs : s.limit = none) (b : Binding) :
    s.insert b = if s.contains b.name then s else { s with bindings := s.bindings ++ [b] } := by
  have hadmits : s.admits b = !s.contains b.name := by rw [admits, isFull, hs]; rfl
  rw [insert, hadmits]
  cases s.contains b.name <;> rfl

theorem get?_insert (hs : s.limit = none) (b : Binding) (name : String) :
    (s.insert b).get? name = (s.get? name).or ([b].find? (·.name == name)) := by
  rw [insert_eq hs]
  split
  · next hb =>
    -- a name that the binding could bind is bound already
    cases hname : s.get? name with
    | some c => rfl
    | none =>
      have hne : (b.name == name) = false := by
        rw [beq_eq_false_iff_ne]
        rintro rfl
        rw [contains_eq_isSome_get?, hname] at hb
        cases hb
      simp [hne]
  · exact List.find?_append

theorem nodup_names_insert (hs : s.limit = none) (b : Binding)
    (h : (s.bindings.map (·.name)).Nodup) : ((s.insert b).bindings.map (·.name)).Nodup := by
  rw [insert_eq hs]
  split
  · exact h
  · next hb =>
    have hnew : ∀ c ∈ s.bindings, c.name ≠ b.name := by simpa [contains] using hb
    simpa [List.nodup_append, h] using hnew

theorem get?_foldl_insert (hs : s.limit = none) (bs : List Binding) (name : String) :
    (bs.foldl insert s).get? name = (s.get? name).or (bs.find? (·.name == name)) := by
  induction bs generalizing s with
  | nil => exact (Option.or_none).symm
  | cons b bs ih =>
    rw [List.foldl_cons, ih ((s.limit_insert b).trans hs), get?_insert hs, Option.or_assoc,
      ← List.find?_append, List.singleton_append]

theorem nodup_names_foldl_insert (hs : s.limit = none) (bs : List Binding)
    (h : (s.bindings.map (·.name)).Nodup) :
    ((bs.foldl insert s).bindings.map (·.name)).Nodup := by
  induction bs generalizing s with
  | nil => exact h
  | cons b bs ih => exact ih ((s.limit_insert b).trans hs) (nodup_names_insert hs b h)

/-- A scope without a limit binds a name as the first binding of the name does. -/
theorem get?_ofList (bs : List Binding) (name : String) :
    (ofList none bs).get? name = bs.find? (·.name == name) :=
  get?_foldl_insert rfl bs name

theorem nodup_names_ofList (bs : List Binding) :
    ((ofList none bs).bindings.map (·.name)).Nodup :=
  nodup_names_foldl_insert rfl bs List.nodup_nil

theorem bindings_foldl_insert (hs : s.limit = none) {mk : String → Binding}
    (hmk : ∀ name, (mk name).name = name) (names : List String) :
    ((names.map mk).foldl insert s).bindings =
      s.bindings ++ (names.filter (!s.contains ·)).eraseDups.map mk := by
  induction names generalizing s with
  | nil => simp
  | cons name names ih =>
    rw [List.map_cons, List.foldl_cons, ih ((s.limit_insert _).trans hs), insert_eq hs, hmk]
    by_cases hname : s.contains name = true
    · rw [if_pos hname, List.filter_cons_of_neg (by simp [hname])]
    · have hcontains : ∀ other, contains { s with bindings := s.bindings ++ [mk name] } other =
          (s.contains other || other == name) := by
        intro other
        simp [contains, hmk, Bool.beq_comm]
      rw [if_neg hname, List.filter_cons_of_pos (by simp [hname]), List.eraseDups_cons,
        List.filter_filter]
      simp [hcontains, Bool.and_comm]

/-- A scope of bindings that differ by their names has one of each, in the order of
    first occurrence. -/
theorem bindings_ofList_map {mk : String → Binding} (hmk : ∀ name, (mk name).name = name)
    (names : List String) :
    (ofList none (names.map mk)).bindings = names.eraseDups.map mk := by
  have hall : names.filter (!(empty none).contains ·) = names :=
    List.filter_eq_self.2 fun _ _ => rfl
  rw [ofList, bindings_foldl_insert rfl hmk, hall]
  rfl

/-- In a scope that binds no name twice, a binding is found by its name. -/
theorem get?_eq_some_of_mem {b : Binding} (h : (s.bindings.map (·.name)).Nodup)
    (hb : b ∈ s.bindings) : s.get? b.name = some b :=
  find?_eq_some_of_nodup h hb

end Scope

/-! ### What a pattern binds -/

theorem Node.mem_preorder_of_mem_children {c m n : Node} (hc : c ∈ n.children)
    (hm : m ∈ c.preorder) : m ∈ n.preorder := by
  rw [Node.preorder_eq]
  exact List.mem_cons_of_mem _ (Node.mem_preorderAll.2 ⟨c, hc, hm⟩)

theorem Node.child_mem_preorder {c n : Node} (hc : c ∈ n.children) : c ∈ n.preorder :=
  mem_preorder_of_mem_children hc c.mem_preorder_self

theorem Tree.mem_nodes_of_mem_children {t : Tree} {c n : Node} (hn : n ∈ t.nodes)
    (hc : c ∈ n.children) : c ∈ t.nodes :=
  Node.preorder_subset_of_mem _ hn (Node.child_mem_preorder hc)

theorem map_fst_judgeForms_sublist (before : List Kind) (ns : List Node) :
    ((judgeForms before ns).map Prod.fst).Sublist ns := by
  induction ns generalizing before with
  | nil => exact .slnil
  | cons n ns ih =>
    rw [judgeForms]
    split
    · exact (ih _).cons_cons n
    · exact (ih _).cons n

theorem Node.activeForms_sublist_children (n : Node) : n.activeForms.Sublist n.children :=
  (List.filter_sublist.map Prod.fst).trans (map_fst_judgeForms_sublist [] n.children)

theorem Node.activeForms_subset_children (n : Node) : n.activeForms ⊆ n.children :=
  n.activeForms_sublist_children.subset

namespace Tree

variable {t : Tree}

/-- A pattern binds a symbol: it is the symbol, which is no sign for the rest of
    the arguments, or a vector or a map with an active form that binds it. -/
inductive BindsSymbol (t : Tree) : Node → Node → Prop
  | symbol {n : Node} : n.kind = .symbol → t.text n ≠ "&" → t.text n ≠ "..." → BindsSymbol t n n
  | inside {p n s : Node} : p.kind = .vector ∨ p.kind = .map → n ∈ p.activeForms →
    BindsSymbol t n s → BindsSymbol t p s

theorem boundNamesAmong_eq (t : Tree) (before : List Kind) (ns : List Node) :
    t.boundNamesAmong before ns =
      (((judgeForms before ns).filter fun (_, off) => !off).map Prod.fst).flatMap t.boundNames := by
  induction ns generalizing before with
  | nil => rw [boundNamesAmong]; rfl
  | cons n ns ih =>
    rw [boundNamesAmong, judgeForms, ih]
    cases n.kind.isForm <;> cases deactivates before n.kind <;> simp

theorem boundNames_symbol {n : Node} (h : n.kind = .symbol) :
    t.boundNames n = if t.text n = "&" ∨ t.text n = "..." then [] else [n] := by
  obtain ⟨id, kind, span, ns⟩ := n
  subst h
  rw [boundNames]

theorem boundNames_collection {n : Node} (h : n.kind = .vector ∨ n.kind = .map) :
    t.boundNames n = n.activeForms.flatMap t.boundNames := by
  obtain ⟨id, kind, span, ns⟩ := n
  rcases h with rfl | rfl
  · rw [boundNames, boundNamesAmong_eq]
    rfl
  · rw [boundNames, boundNamesAmong_eq]
    rfl

theorem boundNames_other {n : Node} (hsymbol : n.kind ≠ .symbol) (hvector : n.kind ≠ .vector)
    (hmap : n.kind ≠ .map) : t.boundNames n = [] := by
  obtain ⟨id, kind, span, ns⟩ := n
  rw [boundNames]
  · exact hsymbol
  · exact hvector
  · exact hmap

mutual

theorem bindsSymbol_of_mem_boundNames {s : Node} : (p : Node) → s ∈ t.boundNames p →
    t.BindsSymbol p s
  | ⟨id, kind, span, ns⟩, h => by
    have hinside := bindsSymbol_of_mem ns (s := s)
    by_cases hsymbol : kind = .symbol
    · rw [boundNames_symbol hsymbol] at h
      split at h
      · exact absurd h List.not_mem_nil
      · next hsign =>
        rw [not_or] at hsign
        rw [List.mem_singleton.1 h]
        exact .symbol hsymbol hsign.1 hsign.2
    by_cases hcollection : kind = .vector ∨ kind = .map
    · rw [boundNames_collection hcollection] at h
      obtain ⟨n, hn, hs⟩ := List.mem_flatMap.1 h
      exact .inside hcollection hn (hinside n (Node.activeForms_subset_children _ hn) hs)
    · rw [not_or] at hcollection
      rw [boundNames_other hsymbol hcollection.1 hcollection.2] at h
      exact absurd h List.not_mem_nil

theorem bindsSymbol_of_mem {s : Node} : (ns : List Node) → ∀ n ∈ ns, s ∈ t.boundNames n →
    t.BindsSymbol n s
  | [], _, hn, _ => absurd hn List.not_mem_nil
  | m :: ns, n, hn, hs => by
    rcases List.mem_cons.1 hn with hn | hn
    · rw [hn] at hs ⊢
      exact bindsSymbol_of_mem_boundNames m hs
    · exact bindsSymbol_of_mem ns n hn hs

end

theorem mem_boundNames_iff {p s : Node} : s ∈ t.boundNames p ↔ t.BindsSymbol p s := by
  refine ⟨bindsSymbol_of_mem_boundNames p, fun h => ?_⟩
  induction h with
  | symbol hkind hrest hdots =>
    rw [boundNames_symbol hkind, if_neg (not_or.2 ⟨hrest, hdots⟩)]
    exact List.mem_singleton_self _
  | inside hkind hn _ ih =>
    rw [boundNames_collection hkind]
    exact List.mem_flatMap.2 ⟨_, hn, ih⟩

theorem BindsSymbol.mem_preorder {p s : Node} (h : t.BindsSymbol p s) : s ∈ p.preorder := by
  induction h with
  | symbol => exact Node.mem_preorder_self _
  | @inside p n s hkind hn _ ih =>
    exact Node.mem_preorder_of_mem_children (p.activeForms_subset_children hn) ih

/-! ### The clauses of a list -/

end Tree

theorem Node.preorderAll_activeForms_subset (n : Node) :
    Node.preorderAll n.activeForms ⊆ n.preorder := by
  intro m hm
  obtain ⟨c, hc, hm⟩ := Node.mem_preorderAll.1 hm
  exact Node.mem_preorder_of_mem_children (n.activeForms_subset_children hc) hm

theorem Node.mem_preorderAll_of_mem {n : Node} {ns : List Node} (h : n ∈ ns) :
    n ∈ Node.preorderAll ns :=
  Node.mem_preorderAll.2 ⟨n, h, n.mem_preorder_self⟩

/-- A clause takes its pattern, and the node from whose end on it is visible, from
    the given nodes or from inside them. -/
structure Clause.IsAmong (c : Clause) (ns : List Node) : Prop where
  pattern_mem : c.pattern ∈ Node.preorderAll ns
  exists_stop : ∃ n ∈ Node.preorderAll ns, c.visibleFrom = n.span.stop

namespace Clause

variable {c : Clause} {ns ms : List Node}

theorem IsAmong.mono (h : c.IsAmong ns) (hsub : Node.preorderAll ns ⊆ Node.preorderAll ms) :
    c.IsAmong ms := by
  obtain ⟨n, hn, hstop⟩ := h.exists_stop
  exact ⟨hsub h.pattern_mem, n, hsub hn, hstop⟩

theorem IsAmong.of_subset (h : c.IsAmong ns) (hsub : ns ⊆ ms) : c.IsAmong ms := by
  refine h.mono fun n hn => ?_
  obtain ⟨m, hm, hn⟩ := Node.mem_preorderAll.1 hn
  exact Node.mem_preorderAll.2 ⟨m, hsub hm, hn⟩

/-- What is among the forms inside a node is among the nodes around it. -/
theorem IsAmong.of_activeForms {v : Node} (h : c.IsAmong v.activeForms) (hv : v ∈ ns) :
    c.IsAmong ns :=
  h.mono fun _ hn => Node.mem_preorderAll.2 ⟨v, hv, v.preorderAll_activeForms_subset hn⟩

theorem isAmong_of_mem {p n : Node} (hp : p ∈ ns) (hn : n ∈ ns) : IsAmong ⟨p, n.span.stop⟩ ns :=
  ⟨Node.mem_preorderAll_of_mem hp, n, Node.mem_preorderAll_of_mem hn, rfl⟩

theorem isAmong_of_mem_ofPairs (h : c ∈ ofPairs ns) : c.IsAmong ns := by
  fun_induction ofPairs ns with
  | case1 => exact absurd h List.not_mem_nil
  | case2 p =>
    rw [List.mem_singleton.1 h]
    exact isAmong_of_mem List.mem_cons_self List.mem_cons_self
  | case3 p v ns ih =>
    rcases List.mem_cons.1 h with rfl | h
    · exact isAmong_of_mem List.mem_cons_self (List.mem_cons_of_mem _ List.mem_cons_self)
    · exact (ih h).of_subset (List.subset_cons_of_subset _ (List.subset_cons_self _ _))

theorem isAmong_of_mem_ofEach (h : c ∈ ofEach ns) : c.IsAmong ns := by
  rw [ofEach] at h
  split at h
  · exact absurd h List.not_mem_nil
  · next coll hcoll =>
    obtain ⟨p, hp, rfl⟩ := List.mem_map.1 h
    exact isAmong_of_mem (List.dropLast_subset _ hp) (List.mem_of_getLast? hcoll)

end Clause

namespace Tree

variable {t : Tree}

theorem isAmong_of_mem_modifierClauses {c : Clause} {k v : Node} {ns : List Node}
    (h : c ∈ t.modifierClauses k v) (hv : v ∈ ns) : c.IsAmong ns := by
  rw [modifierClauses] at h
  split at h
  · exact absurd h List.not_mem_nil
  split at h
  · exact (Clause.isAmong_of_mem_ofPairs h).of_activeForms hv
  split at h
  · rw [Option.mem_toList, Option.map_eq_some_iff] at h
    obtain ⟨acc, hacc, rfl⟩ := h
    have hinner := v.preorderAll_activeForms_subset
      (Node.mem_preorderAll_of_mem (List.mem_of_mem_head? hacc))
    exact ⟨Node.mem_preorderAll.2 ⟨v, hv, hinner⟩, v, Node.mem_preorderAll_of_mem hv, rfl⟩
  · exact absurd h List.not_mem_nil

theorem isAmong_of_mem_forClauses {c : Clause} {ns : List Node} (h : c ∈ t.forClauses ns) :
    c.IsAmong ns := by
  fun_induction forClauses t ns with
  | case1 => exact absurd h List.not_mem_nil
  | case2 p hp => exact absurd h List.not_mem_nil
  | case3 p hp =>
    rw [List.mem_singleton.1 h]
    exact Clause.isAmong_of_mem List.mem_cons_self List.mem_cons_self
  | case4 p v hp => exact isAmong_of_mem_modifierClauses h (by simp)
  | case5 p v hp =>
    rw [List.mem_singleton.1 h]
    exact Clause.isAmong_of_mem (by simp) (by simp)
  | case6 p v e ns hp ih =>
    rcases List.mem_append.1 h with h | h
    · exact isAmong_of_mem_modifierClauses h (by simp)
    · exact (ih h).of_subset (List.subset_cons_of_subset _ (List.subset_cons_self _ _))
  | case7 p v e ns hp ih =>
    rcases List.mem_cons.1 h with rfl | h
    · exact Clause.isAmong_of_mem (by simp) (by simp)
    · exact (ih h).of_subset (List.subset_append_right [p, v, e] ns)

theorem mem_activeForms_of_parameterVector? {n ps : Node} (h : n.parameterVector? = some ps) :
    ps ∈ n.activeForms :=
  List.drop_subset _ _ (List.takeWhile_subset _ (List.mem_of_find?_eq_some h))

theorem mem_activeForms_of_bindingVector? {n v : Node} (h : n.bindingVector? = some v) :
    v ∈ n.activeForms :=
  List.mem_of_getElem? (Option.filter_eq_some_iff.1 h).1

/-- A clause of a list that binds names of the given kind. -/
structure IsClauseOf (n : Node) (kind : BindingKind) (x : BindingKind × Clause) : Prop where
  kind_eq : x.1 = kind
  isAmong : x.2.IsAmong n.activeForms

theorem isClauseOf_atEnd {n p : Node} {kind : BindingKind} (hp : p ∈ n.activeForms) :
    IsClauseOf n kind (kind, .atEnd p) :=
  ⟨rfl, Clause.isAmong_of_mem hp hp⟩

theorem isClauseOf_vectorClauses {n : Node} {kind : BindingKind}
    {clauses : List Node → List Clause} (hclauses : ∀ ns, ∀ c ∈ clauses ns, c.IsAmong ns) :
    ∀ x ∈ headClauses.vectorClauses n kind clauses, IsClauseOf n kind x := by
  intro x hx
  rw [headClauses.vectorClauses] at hx
  split at hx
  · next v hv =>
    obtain ⟨c, hc, rfl⟩ := List.mem_map.1 hx
    exact ⟨rfl, (hclauses _ c hc).of_activeForms (mem_activeForms_of_bindingVector? hv)⟩
  · exact absurd hx List.not_mem_nil

theorem exists_isClauseOf_headClauses (t : Tree) (n : Node) (h : Head) :
    ∃ kind, ∀ x ∈ t.headClauses n h, IsClauseOf n kind x := by
  have hpairs : ∀ ns, ∀ c ∈ Clause.ofPairs ns, c.IsAmong ns := fun _ _ =>
    Clause.isAmong_of_mem_ofPairs
  have hfirst : ∀ ns, ∀ c ∈ (Clause.ofPairs ns).take 1, c.IsAmong ns := fun ns c hc =>
    hpairs ns c (List.take_subset _ _ hc)
  have hfor : ∀ ns, ∀ c ∈ t.forClauses ns, c.IsAmong ns := fun _ _ => isAmong_of_mem_forClauses
  have heach : ∀ ns, ∀ c ∈ Clause.ofEach ns, c.IsAmong ns := fun _ _ =>
    Clause.isAmong_of_mem_ofEach
  rw [headClauses.eq_def]
  split
  case h_1 | h_2 | h_3 | h_4 | h_5 =>
    refine ⟨.parameter, fun x hx => ?_⟩
    obtain ⟨ps, hps, rfl⟩ := Option.map_eq_some_iff.1 (Option.mem_toList.1 hx)
    exact isClauseOf_atEnd (mem_activeForms_of_parameterVector? hps)
  case h_6 | h_7 | h_8 => exact ⟨_, isClauseOf_vectorClauses hpairs⟩
  case h_9 | h_10 => exact ⟨_, isClauseOf_vectorClauses hfor⟩
  case h_11 => exact ⟨_, isClauseOf_vectorClauses heach⟩
  case h_12 | h_13 => exact ⟨_, isClauseOf_vectorClauses hfirst⟩
  case h_14 =>
    refine ⟨.catchBinding, fun x hx => ?_⟩
    obtain ⟨name, hname, rfl⟩ := Option.map_eq_some_iff.1 (Option.mem_toList.1 hx)
    exact isClauseOf_atEnd (List.mem_of_getElem? hname)
  case h_15 => exact ⟨.parameter, fun x hx => absurd hx List.not_mem_nil⟩

theorem exists_isClauseOf_clausesAt (t : Tree) (l : Location) :
    ∃ kind, ∀ x ∈ t.clausesAt l, IsClauseOf l.node kind x := by
  have hnone : ∃ kind, ∀ x ∈ ([] : List (BindingKind × Clause)), IsClauseOf l.node kind x :=
    ⟨.parameter, fun x hx => absurd hx List.not_mem_nil⟩
  rw [clausesAt.eq_def]
  split
  · exact hnone
  · next first hfirst =>
    split
    · split
      · refine ⟨.parameter, fun x hx => ?_⟩
        rw [List.mem_singleton.1 hx]
        exact isClauseOf_atEnd (List.mem_of_mem_head? hfirst)
      · exact hnone
    · cases t.head? l.node with
      | none => exact hnone
      | some h => exact t.exists_isClauseOf_headClauses l.node h

/-! ### Lists that bind nothing because they are inert -/

theorem startsWord_of_misled {t : Tree} {l : Location} (h : t.Misled l) :
    ∃ c s, t.chars l.node = c :: s ∧ startsWord c = true := by
  obtain ⟨_, _, _, _, -, -, -, -, hname, -⟩ := h
  obtain ⟨c, s, hvisible, hc⟩ := exists_cons_of_beginsName hname
  refine ⟨c, s, ?_, startsWord_of_isOrdinary hc⟩
  rw [← hvisible]
  exact (visible_eq_chars_of_mem (by rw [hvisible]; exact List.mem_cons_self)
    (ne_of_isOrdinary hc (by decide))).symm

variable {cs : List Char} {l cursor : Location}

/-- A node that starts as a word is one, since every other node starts with the
    token that opens it. -/
theorem isWord_of_startsWord {c : Char} {s : List Char} (hl : l ∈ (Tree.read cs).below)
    (hroot : l.node.kind ≠ .root) (hchars : (Tree.read cs).chars l.node = c :: s)
    (hc : startsWord c = true) : l.node.kind.isWord = true := by
  obtain ⟨before, run, after, hlex, hrun⟩ := exists_run_of_mem_below hl
  obtain ⟨word, ls, k, x, rfl, -, hshape, hkind⟩ := exists_first_word hlex hrun hchars hc
  have htokens := hrun.tokens
  generalize hleaves : l.node.leaves l.trail = leaves at htokens
  cases htokens with
  | @cons _ _ _ leaf leaves htoken _ =>
    have hleaf : leaf.node.kind = k := by
      have hmem := htoken.kind_mem
      rw [hshape] at hmem
      exact List.mem_singleton.1 hmem
    obtain ⟨⟨id, kind, span, ns⟩, above⟩ := l
    cases ns with
    | nil =>
      rw [Node.leaves] at hleaves
      rw [← (List.cons.inj hleaves).1] at hleaf
      rw [show kind = k from hleaf]
      exact hkind
    | cons m ns =>
      -- the first token inside the node stands where the node starts
      rw [Node.leaves] at hleaves
      have htrail := Node.subset_trail_of_mem_leavesAll _ _
        (hleaves ▸ List.mem_cons_self : leaf ∈ _) List.mem_cons_self
      rcases htoken.inside with h | h | h
      · rw [← hleaf, h] at hkind
        cases hkind
      · rw [← hleaf, h] at hkind
        cases hkind
      · rcases h _ htrail with h | h
        · exact absurd h hroot
        · have hstart := congrArg Span.start hrun.span_eq
          exact absurd hstart (Nat.ne_of_lt h)

/-- What only the text marks is a word. -/
theorem isWord_of_isMarkedInText (hl : l ∈ (Tree.read cs).locations) (hroot : l.node.kind ≠ .root)
    (h : (Tree.read cs).isMarkedInText l = true) : l.node.kind.isWord = true := by
  have hmisled := (isMarkedInText_read_iff hl).1 h
  obtain ⟨c, s, hchars, hc⟩ := startsWord_of_misled hmisled
  obtain ⟨v, above, _, _, habove, -⟩ := hmisled
  have hbelow : l ∈ (Tree.read cs).below := by
    rw [locations_eq] at hl
    rcases List.mem_cons.1 hl with rfl | hl
    · cases habove
    · exact hl
  exact isWord_of_startsWord hbelow hroot hchars hc

/-- The text does not mislead about forms with parts: one is inert if and only if it belongs to
    a deactivated form. -/
theorem isInert_eq_of_isNested (hl : l ∈ (Tree.read cs).locations)
    (hnested : l.node.kind.isNested = true) :
    (Tree.read cs).isInert l = l.isInDeactivated := by
  have hkind : l.node.kind.isForm = true ∧ l.node.kind.isWord = false ∧ l.node.kind ≠ .root := by
    revert hnested
    cases l.node.kind <;> decide
  have hform : l.enclosingForm? = some l := List.find?_cons_of_pos hkind.1
  have hmarked : (Tree.read cs).isMarkedInText l = false := by
    rw [Bool.eq_false_iff]
    intro h
    have hword := isWord_of_isMarkedInText hl hkind.2.2 h
    exact absurd (hkind.2.1.symm.trans hword) Bool.false_ne_true
  rw [isInert, hform]
  simp only [hmarked, Bool.or_false]

theorem isInert_eq_isInDeactivated (hl : l ∈ (Tree.read cs).locations)
    (hcall : l.node.kind.isCall = true) : (Tree.read cs).isInert l = l.isInDeactivated := by
  refine isInert_eq_of_isNested hl ?_
  revert hcall
  cases l.node.kind <;> decide

/-! ### The innermost list that introduces a name -/

theorem eq_of_id_eq {m n : Node} (hm : m ∈ (Tree.read cs).nodes) (hn : n ∈ (Tree.read cs).nodes)
    (h : m.id = n.id) : m = n := by
  obtain ⟨k, hk⟩ := ids_read cs
  have hnodup : ((Tree.read cs).nodes.map (·.id)).Nodup := hk ▸ List.nodup_range
  have hfind := find?_eq_some_of_nodup hnodup hm
  rw [h, find?_eq_some_of_nodup hnodup hn] at hfind
  exact (Option.some.inj hfind).symm

theorem exists_mem_chain {n : Node} {ns : List Node} (h : n ∈ ns) :
    ∃ a ∈ Location.chain ns, a.node = n := by
  induction ns with
  | nil => exact absurd h List.not_mem_nil
  | cons m ns ih =>
    rcases List.mem_cons.1 h with rfl | h
    · exact ⟨_, List.mem_cons_self, rfl⟩
    · obtain ⟨a, ha, hn⟩ := ih h
      exact ⟨a, List.mem_cons_of_mem _ ha, hn⟩

theorem mem_nodes_of_mem_above {n : Node} (hl : l ∈ (Tree.read cs).locations)
    (hn : n ∈ l.node :: l.above) : n ∈ (Tree.read cs).nodes := by
  obtain ⟨a, ha, rfl⟩ : ∃ a ∈ l.selfAndAncestors, a.node = n := exists_mem_chain hn
  exact mem_nodes_of_mem_locations (selfAndAncestors_subset_locations hl ha)

/-- A location is within a node if the node is its own or around it. -/
theorem isWithin_iff_mem {n : Node} (hl : l ∈ (Tree.read cs).locations)
    (hn : n ∈ (Tree.read cs).nodes) : l.isWithin n = true ↔ n ∈ l.node :: l.above := by
  have hany : l.isWithin n = (l.node :: l.above).any (·.id == n.id) := rfl
  rw [hany, List.any_eq_true]
  constructor
  · rintro ⟨m, hm, hid⟩
    rwa [← eq_of_id_eq (mem_nodes_of_mem_above hl hm) hn (beq_iff_eq.1 hid)]
  · exact fun h => ⟨n, h, beq_self_eq_true _⟩

end Tree

/-- Neither the form at a location nor a form around it is deactivated. -/
def Location.IsActive (l : Location) : Prop :=
  ∀ a ∈ l.selfAndAncestors, a.node.kind.isForm = true → a.isDeactivated = false

theorem Location.isInDeactivated_eq_false_iff {l : Location} :
    l.isInDeactivated = false ↔ l.IsActive := by
  simp [isInDeactivated, IsActive]

namespace Tree

variable {t : Tree} {l cursor : Location} {offset depth : Nat} {kind : BindingKind} {name : String}
  {ls : List Location} {b : Binding}

/-- The list at a location introduces a name of the given kind to a cursor at
    `offset`: it is active, and a clause of it that is visible at the offset, and
    whose pattern does not hold the cursor, binds a symbol with this name that
    ends before the cursor. -/
structure Introduces (t : Tree) (cursor : Location) (offset : Nat) (l : Location)
    (kind : BindingKind) (name : String) : Prop where
  isCall : l.node.kind.isCall = true
  isActive : l.IsActive
  exists_clause : ∃ clause symbol, (kind, clause) ∈ t.clausesAt l ∧
    clause.visibleFrom ≤ offset ∧ clause.pattern ∉ cursor.node :: cursor.above ∧
    t.BindsSymbol clause.pattern symbol ∧ symbol.span.stop ≤ offset ∧ t.text symbol = name

/-- Whether the list at a location may bind names. -/
def isLive (t : Tree) (l : Location) : Bool := l.node.kind.isCall && !t.isInert l

/-- Whether the list at a location is a function, and not inert. -/
def isLiveFunction (t : Tree) (l : Location) : Bool :=
  t.isLive l && (t.head? l.node).any (·.isScopeRoot)

theorem bindingsAlong_cons (t : Tree) (cursor : Location) (offset depth : Nat) (l : Location)
    (ls : List Location) :
    t.bindingsAlong cursor offset depth (l :: ls) =
      (if t.isLive l then t.bindingsAt cursor offset depth l else []) ++
        t.bindingsAlong cursor offset (depth + [l].countP t.isLiveFunction) ls := by
  have hlive : t.isLive l = !(!l.node.kind.isCall || t.isInert l) := by
    rw [isLive, Bool.not_or, Bool.not_not]
  rw [bindingsAlong, List.countP_singleton, isLiveFunction, hlive]
  cases (!l.node.kind.isCall || t.isInert l) with
  | true => rfl
  | false => cases (t.head? l.node).any (·.isScopeRoot) <;> rfl

theorem mem_bindingsAt_iff :
    b ∈ t.bindingsAt cursor offset depth l ↔ ∃ clause symbol, (b.kind, clause) ∈ t.clausesAt l ∧
      clause.visibleFrom ≤ offset ∧ cursor.isWithin clause.pattern = false ∧
      t.BindsSymbol clause.pattern symbol ∧ symbol.span.stop ≤ offset ∧
      b = { name := t.text symbol, kind := b.kind, depth := .within depth } := by
  rw [bindingsAt, List.mem_flatMap]
  constructor
  · rintro ⟨⟨kind, clause⟩, hclause, hb⟩
    dsimp only at hb
    split at hb
    · exact absurd hb List.not_mem_nil
    · next hvisible =>
      obtain ⟨s, hs, rfl⟩ := List.mem_map.1 hb
      obtain ⟨hs, hstop⟩ := List.mem_filter.1 hs
      rw [Bool.or_eq_true, not_or, decide_eq_true_eq, Nat.not_lt, Bool.not_eq_true] at hvisible
      exact ⟨clause, s, hclause, hvisible.1, hvisible.2, mem_boundNames_iff.1 hs,
        of_decide_eq_true hstop, rfl⟩
  · rintro ⟨clause, s, hclause, hvisible, hwithin, hs, hstop, hb⟩
    refine ⟨_, hclause, ?_⟩
    dsimp only
    rw [hwithin, Bool.or_false, if_neg (by simpa using hvisible)]
    exact List.mem_map.2
      ⟨s, List.mem_filter.2 ⟨mem_boundNames_iff.2 hs, decide_eq_true hstop⟩, hb.symm⟩

/-- A list may bind names if and only if it is active. -/
theorem isLive_iff {cs : List Char} (hl : l ∈ (Tree.read cs).locations) :
    (Tree.read cs).isLive l = true ↔ l.node.kind.isCall = true ∧ l.IsActive := by
  rw [isLive, Bool.and_eq_true, Bool.not_eq_true']
  refine and_congr_right fun hcall => ?_
  rw [isInert_eq_isInDeactivated hl hcall, Location.isInDeactivated_eq_false_iff]

/-- A list introduces the names of the bindings that it makes visible. -/
theorem introduces_iff {cs : List Char} (hcursor : cursor ∈ (Tree.read cs).locations)
    (hl : l ∈ (Tree.read cs).locations) (depth : Nat) :
    (Tree.read cs).Introduces cursor offset l kind name ↔ (Tree.read cs).isLive l = true ∧
      { name, kind, depth := .within depth } ∈ (Tree.read cs).bindingsAt cursor offset depth l := by
  -- the pattern of a clause is a node of the tree, so it is told by its number
  have hwithin : ∀ clause, (kind, clause) ∈ (Tree.read cs).clausesAt l →
      (cursor.isWithin clause.pattern = false ↔ clause.pattern ∉ cursor.node :: cursor.above) := by
    intro clause hclause
    obtain ⟨_, hkind⟩ := (Tree.read cs).exists_isClauseOf_clausesAt l
    have hnode := Node.preorder_subset_of_mem _ (mem_nodes_of_mem_locations hl)
      (l.node.preorderAll_activeForms_subset (hkind _ hclause).isAmong.pattern_mem)
    rw [← isWithin_iff_mem hcursor hnode, Bool.not_eq_true]
  rw [isLive_iff hl, mem_bindingsAt_iff]
  constructor
  · rintro ⟨hcall, hactive, clause, s, hclause, hvisible, hout, hs, hstop, rfl⟩
    exact ⟨⟨hcall, hactive⟩, clause, s, hclause, hvisible, (hwithin clause hclause).2 hout, hs,
      hstop, rfl⟩
  · rintro ⟨⟨hcall, hactive⟩, clause, s, hclause, hvisible, hout, hs, hstop, hb⟩
    exact ⟨hcall, hactive, clause, s, hclause, hvisible, (hwithin clause hclause).1 hout, hs,
      hstop, (congrArg Binding.name hb).symm⟩

/-- A list binds names of one kind. -/
theorem Introduces.kind_eq {kind' : BindingKind} {name' : String}
    (h : t.Introduces cursor offset l kind name) (h' : t.Introduces cursor offset l kind' name') :
    kind = kind' := by
  obtain ⟨k, hk⟩ := t.exists_isClauseOf_clausesAt l
  obtain ⟨_, _, hclause, -⟩ := h.exists_clause
  obtain ⟨_, _, hclause', -⟩ := h'.exists_clause
  exact (hk _ hclause).kind_eq.trans (hk _ hclause').kind_eq.symm

/-- Where nothing is found along the way out, no live list makes it visible. -/
theorem find?_bindingsAlong_eq_none {p : Binding → Bool}
    (h : (t.bindingsAlong cursor offset depth ls).find? p = none) :
    ∀ l ∈ ls, t.isLive l = true → ∃ d, (t.bindingsAt cursor offset d l).find? p = none := by
  induction ls generalizing depth with
  | nil => exact fun l hl => absurd hl List.not_mem_nil
  | cons m ls ih =>
    rw [bindingsAlong_cons, List.find?_append, Option.or_eq_none_iff] at h
    intro l hl hlive
    rcases List.mem_cons.1 hl with rfl | hl
    · rw [if_pos hlive] at h
      exact ⟨depth, h.1⟩
    · exact ih h.2 l hl hlive

/-- What is found first on the way out comes from the innermost live list that
    makes it visible. -/
theorem find?_bindingsAlong_eq_some {p : Binding → Bool}
    (h : (t.bindingsAlong cursor offset depth ls).find? p = some b) :
    ∃ inner l outer, ls = inner ++ l :: outer ∧ t.isLive l = true ∧
      b ∈ t.bindingsAt cursor offset (depth + inner.countP t.isLiveFunction) l ∧
      ∀ m ∈ inner, t.isLive m = true →
        ∃ d, (t.bindingsAt cursor offset d m).find? p = none := by
  induction ls generalizing depth with
  | nil => cases h
  | cons m ls ih =>
    rw [bindingsAlong_cons, List.find?_append, Option.or_eq_some_iff] at h
    rcases h with h | ⟨hnone, h⟩
    · split at h
      · next hlive =>
        exact ⟨[], m, ls, rfl, hlive, List.mem_of_find?_eq_some h,
          fun k hk => absurd hk List.not_mem_nil⟩
      · cases h
    · obtain ⟨inner, l, outer, rfl, hlive, hb, hinner⟩ := ih h
      refine ⟨m :: inner, l, outer, rfl, hlive, ?_, fun k hk hk' => ?_⟩
      · rwa [← List.singleton_append, List.countP_append, ← Nat.add_assoc]
      · rcases List.mem_cons.1 hk with rfl | hk
        · rw [if_pos hk'] at hnone
          exact ⟨depth, hnone⟩
        · exact hinner k hk hk'

section Innermost

variable {cs : List Char} (hcursor : cursor ∈ (Tree.read cs).locations)

include hcursor

/-- A list that makes no binding of a name visible does not introduce the name. -/
theorem not_introduces (hl : l ∈ (Tree.read cs).locations)
    (hnone : (Tree.read cs).isLive l = true → ∃ d,
      ((Tree.read cs).bindingsAt cursor offset d l).find? (·.name == name) = none) :
    ¬(Tree.read cs).Introduces cursor offset l kind name := by
  intro h
  obtain ⟨d, hd⟩ := hnone ((introduces_iff hcursor hl 0).1 h).1
  have hmem := ((introduces_iff hcursor hl d).1 h).2
  exact List.find?_eq_none.1 hd _ hmem (beq_self_eq_true _)

/-- The first binding of a name comes from the innermost list that introduces the
    name. -/
theorem exists_innermost (hls : ∀ l ∈ ls, l ∈ (Tree.read cs).locations)
    (hb : ((Tree.read cs).bindingsAlong cursor offset depth ls).find? (·.name == name) = some b) :
    b.name = name ∧ ∃ inner l outer, ls = inner ++ l :: outer ∧
      (Tree.read cs).Introduces cursor offset l b.kind name ∧
      (∀ m ∈ inner, ∀ kind, ¬(Tree.read cs).Introduces cursor offset m kind name) ∧
      b.depth = .within (depth + inner.countP (Tree.read cs).isLiveFunction) := by
  obtain rfl : b.name = name := by simpa using List.find?_some hb
  obtain ⟨inner, l, outer, rfl, hlive, hmem, hinner⟩ := find?_bindingsAlong_eq_some hb
  obtain ⟨_, _, -, -, -, -, -, hbinding⟩ := mem_bindingsAt_iff.1 hmem
  have hintro : (Tree.read cs).Introduces cursor offset l b.kind b.name := by
    refine (introduces_iff hcursor (hls l (by simp))
      (depth + inner.countP (Tree.read cs).isLiveFunction)).2 ⟨hlive, ?_⟩
    rw [hbinding] at hmem ⊢
    exact hmem
  refine ⟨rfl, inner, l, outer, rfl, hintro, fun m hm kind => ?_, congrArg Binding.depth hbinding⟩
  exact not_introduces hcursor (hls m (by simp [hm])) (hinner m hm)

end Innermost

/-- In the tree of a text, the local scope at a cursor binds a name if and only if
    one of the lists around the cursor introduces it, no more than `maxDepth`
    levels up. It binds every name once, as the innermost such list does, and so
    deep as there are functions strictly inside that list that are not inert. -/
theorem scope_read_innermost {cs : List Char} {cursor : Location}
    (hcursor : cursor ∈ (Tree.read cs).locations) (offset maxDepth : Nat) :
    let t := Tree.read cs
    let around := cursor.ancestors.take maxDepth
    let scope := Scope.ofList none (t.lexicalBindings maxDepth cursor offset)
    (∀ name, scope.contains name = true ↔
      ∃ l ∈ around, ∃ kind, t.Introduces cursor offset l kind name) ∧
    (scope.bindings.map (·.name)).Nodup ∧
    ∀ b ∈ scope.bindings, ∃ inner l outer, around = inner ++ l :: outer ∧
      (∀ kind, t.Introduces cursor offset l kind b.name ↔ kind = b.kind) ∧
      (∀ m ∈ inner, ∀ kind, ¬t.Introduces cursor offset m kind b.name) ∧
      b.depth = .within (inner.countP t.isLiveFunction) := by
  intro t around scope
  have hget : ∀ name, scope.get? name =
      (t.bindingsAlong cursor offset 0 around).find? (·.name == name) := Scope.get?_ofList _
  have haround : ∀ l ∈ around, l ∈ t.locations := fun l hl =>
    selfAndAncestors_subset_locations hcursor (List.mem_cons_of_mem _ (List.take_subset _ _ hl))
  refine ⟨fun name => ?_, Scope.nodup_names_ofList _, fun b hb => ?_⟩
  · rw [Scope.contains_eq_isSome_get?, hget]
    constructor
    · intro h
      obtain ⟨b, hb⟩ := Option.isSome_iff_exists.1 h
      obtain ⟨-, inner, l, outer, hsplit, hintro, -⟩ := exists_innermost hcursor haround hb
      exact ⟨l, by simp [hsplit], b.kind, hintro⟩
    · rintro ⟨l, hl, kind, h⟩
      rw [Option.isSome_iff_ne_none]
      intro hnone
      exact not_introduces hcursor (haround l hl) (find?_bindingsAlong_eq_none hnone l hl) h
  · have hfound := Scope.get?_eq_some_of_mem (Scope.nodup_names_ofList _) hb
    obtain ⟨-, inner, l, outer, hsplit, hintro, hinner, hdepth⟩ :=
      exists_innermost hcursor haround ((hget b.name).symm.trans hfound)
    rw [Nat.zero_add] at hdepth
    refine ⟨inner, l, outer, hsplit, fun kind => ⟨fun h => h.kind_eq hintro, ?_⟩, hinner, hdepth⟩
    rintro rfl
    exact hintro

/-- The name `x` is rebound, but `y` only by a deactivated list around the cursor,
    and `z` is not bound yet inside its own value. -/
theorem scope_read_innermost_nested :
    let cs := "(defn f [x y] (let [x 1 z (fn [w] #_(let [y 2] (g x w".toList
    let t := Tree.read cs
    ∃ cursor ∈ t.locations, t.text cursor.node = "w" ∧
      let scope := Scope.ofList none (t.lexicalBindings 20 cursor 52)
      scope.bindings.map (fun b => (b.name, b.kind, b.depth)) =
        [("w", .parameter, .within 0), ("x", .letBinding, .within 1),
         ("y", .parameter, .within 1)] ∧
      ∀ b ∈ scope.bindings, ∃ inner l outer, cursor.ancestors.take 20 = inner ++ l :: outer ∧
        (∀ kind, t.Introduces cursor 52 l kind b.name ↔ kind = b.kind) ∧
        (∀ m ∈ inner, ∀ kind, ¬t.Introduces cursor 52 m kind b.name) ∧
        b.depth = .within (inner.countP t.isLiveFunction) := by
  intro cs t
  obtain ⟨cursor, hcursor, htext, hscope⟩ : ∃ cursor ∈ t.locations, t.text cursor.node = "w" ∧
      (Scope.ofList none (t.lexicalBindings 20 cursor 52)).bindings.map
        (fun b => (b.name, b.kind, b.depth)) =
        [("w", .parameter, .within 0), ("x", .letBinding, .within 1),
         ("y", .parameter, .within 1)] := by
    decide +kernel
  exact ⟨cursor, hcursor, htext, hscope, (scope_read_innermost hcursor 52 20).2.2⟩

end Tree

end Typeahead
