import Typeahead.Proofs.NameSlots

/-!
# Name slots of comprehensions

The vector of a comprehension holds clauses of a pattern, a verb and a source, and
between them modifiers of a keyword and a value. Read from the left, the role of a form
follows from the role of the form before it (`ForRole.next`), and the names that are
bound are those of the patterns and of the values of some modifiers
(`Tree.map_pattern_forClauses`). The rule of the slot knows no roles: it takes a form
after a keyword for a value and any other for a name. So the two part at a pattern after a
keyword, at a verb, at a source after a verb that is no keyword, and at the names that a
modifier binds (`Cursor.isMisjudged`).

* `Cursor.SymbolIn.exists_mem_forClauses_iff`: when the clauses bind the symbol at a
  cursor;
* `Cursor.slot_comprehension_iff_bound_iff`: the slot is that of a name exactly where the
  symbol is bound, except in these places, and there never.
-/

namespace Typeahead

/-- What a form in the vector of a comprehension is for; the value of a modifier with the
    keyword of the modifier. -/
inductive ForRole
  | pattern
  | verb
  | source
  | modifier (keyword : Node)
  | value (keyword : Node)

namespace ForRole

/-- The role of the form `n` after a form with the role `before`. -/
def next (before : Option ForRole) (n : Node) : ForRole :=
  match before with
  | some .pattern => .verb
  | some .verb => .source
  | some (.modifier k) => .value k
  | some .source | some (.value _) | none =>
    if n.kind = .keyword then .modifier n else .pattern

/-- The roles of forms that come after a form with the role `before`. -/
def along (before : Option ForRole) : List Node → List ForRole
  | [] => []
  | n :: ns => next before n :: along (some (next before n)) ns

/-- The patterns that a form has in a role. -/
def patterns (t : Tree) : ForRole → Node → List Node
  | pattern, n => [n]
  | value k, n => (t.modifierClauses k n).map (·.pattern)
  | _, _ => []

theorem length_along (before : Option ForRole) (ns : List Node) :
    (along before ns).length = ns.length := by
  induction ns generalizing before with
  | nil => rfl
  | cons n ns ih => rw [along, List.length_cons, List.length_cons, ih]

/-- The role at a place follows from the role at the place before. -/
theorem getElem?_along_succ (before : Option ForRole) (ns : List Node) (i : Nat) :
    (along before ns)[i + 1]? = ns[i + 1]?.map (next (along before ns)[i]?) := by
  induction ns generalizing before i with
  | nil => rfl
  | cons n ns ih =>
    rw [along, List.getElem?_cons_succ, List.getElem?_cons_succ]
    cases i with
    | zero => cases ns <;> rfl
    | succ i => rw [ih, List.getElem?_cons_succ]

/-- What a form can be, by the role before it. -/
theorem next_cases (before : Option ForRole) (n : Node) :
    before = some .pattern ∧ next before n = .verb ∨
    before = some .verb ∧ next before n = .source ∨
    (∃ k, before = some (.modifier k) ∧ next before n = .value k) ∨
    n.kind = .keyword ∧ next before n = .modifier n ∨
    n.kind ≠ .keyword ∧ next before n = .pattern := by
  have hstart : n.kind = .keyword ∧ next none n = .modifier n ∨
      n.kind ≠ .keyword ∧ next none n = .pattern := by
    by_cases hn : n.kind = .keyword
    · exact .inl ⟨hn, if_pos hn⟩
    · exact .inr ⟨hn, if_neg hn⟩
  cases before with
  | none => exact .inr (.inr (.inr hstart))
  | some r =>
    cases r with
    | pattern => exact .inl ⟨rfl, rfl⟩
    | verb => exact .inr (.inl ⟨rfl, rfl⟩)
    | modifier k => exact .inr (.inr (.inl ⟨k, rfl, rfl⟩))
    | source | value => exact .inr (.inr (.inr hstart))

theorem kind_ne_of_next_eq {before : Option ForRole} {n : Node} (h : next before n = .pattern) :
    n.kind ≠ .keyword := by
  rcases next_cases before n with ⟨-, h'⟩ | ⟨-, h'⟩ | ⟨_, -, h'⟩ | ⟨-, h'⟩ | ⟨hn, -⟩
  iterate 4 (rw [h'] at h; cases h)
  exact hn

theorem kind_eq_of_next_eq {before : Option ForRole} {n k : Node}
    (h : next before n = .modifier k) : n = k ∧ k.kind = .keyword := by
  rcases next_cases before n with ⟨-, h'⟩ | ⟨-, h'⟩ | ⟨_, -, h'⟩ | ⟨hn, h'⟩ | ⟨-, h'⟩
  all_goals (rw [h'] at h; cases h)
  exact ⟨rfl, hn⟩

/-- A form gets its role by the role of the form before it. -/
theorem exists_next_eq {ns : List Node} {i : Nat} {n : Node} {r : ForRole}
    (hn : ns[i]? = some n) (hr : (along none ns)[i]? = some r) :
    ∃ before, r = next before n ∧
      ∀ s, before = some s → ∃ j, i = j + 1 ∧ (along none ns)[j]? = some s := by
  cases i with
  | zero =>
    refine ⟨none, ?_, fun s hs => absurd hs (by simp)⟩
    cases ns with
    | nil => cases hn
    | cons m ms =>
      obtain rfl := Option.some.inj hn
      exact (Option.some.inj hr).symm
  | succ i =>
    rw [getElem?_along_succ, hn] at hr
    exact ⟨_, (Option.some.inj hr).symm, fun s hs => ⟨i, rfl, hs⟩⟩

/-- Keywords among the forms of a comprehension: modifiers are keywords, patterns are none,
    and a verb is after a pattern, a value after its keyword. -/
theorem along_cases {ns : List Node} {i : Nat} {n : Node} {r : ForRole}
    (hn : ns[i]? = some n) (hr : (along none ns)[i]? = some r) :
    (r = .verb ∧ ∃ j p, i = j + 1 ∧ ns[j]? = some p ∧ p.kind ≠ .keyword) ∨ r = .source ∨
    (∃ k j, r = .value k ∧ i = j + 1 ∧ ns[j]? = some k ∧ k.kind = .keyword) ∨
    (r = .modifier n ∧ n.kind = .keyword) ∨ (r = .pattern ∧ n.kind ≠ .keyword) := by
  obtain ⟨before, rfl, hbefore⟩ := exists_next_eq hn hr
  -- the form that has the role before, and how it got it
  have hform : ∀ s, before = some s → ∃ j m before', i = j + 1 ∧ ns[j]? = some m ∧
      s = next before' m := by
    intro s hs
    obtain ⟨j, rfl, hj⟩ := hbefore s hs
    have hlt := (List.getElem?_eq_some_iff.1 hj).1
    rw [length_along] at hlt
    have hm := List.getElem?_eq_getElem hlt
    obtain ⟨before', hs', -⟩ := exists_next_eq hm hj
    exact ⟨j, _, before', rfl, hm, hs'⟩
  rcases next_cases before n with ⟨hs, h⟩ | ⟨-, h⟩ | ⟨k, hs, h⟩ | ⟨hn, h⟩ | ⟨hn, h⟩
  · obtain ⟨j, m, before', hij, hm, hrole⟩ := hform _ hs
    exact .inl ⟨h, j, m, hij, hm, kind_ne_of_next_eq hrole.symm⟩
  · exact .inr (.inl h)
  · obtain ⟨j, m, before', hij, hm, hrole⟩ := hform _ hs
    obtain ⟨rfl, hkeyword⟩ := kind_eq_of_next_eq hrole.symm
    exact .inr (.inr (.inl ⟨m, j, h, hij, hm, hkeyword⟩))
  · exact .inr (.inr (.inr (.inl ⟨h, hn⟩)))
  · exact .inr (.inr (.inr (.inr ⟨h, hn⟩)))

end ForRole

/-- The roles of the forms in the vector of a comprehension. -/
def Node.forRoles (v : Node) : List ForRole := ForRole.along none v.activeForms

/-- The patterns of the clauses of a comprehension are those that its forms have in their
    roles. -/
theorem Tree.map_pattern_forClauses (t : Tree) (ns : List Node) (before : Option ForRole)
    (hbefore : ∀ n, ForRole.next before n = ForRole.next none n) :
    (t.forClauses ns).map (·.pattern) =
      (ns.zip (ForRole.along before ns)).flatMap fun x => x.2.patterns t x.1 := by
  have hmodifier : ∀ p : Node, p.kind = .keyword → ForRole.next none p = .modifier p :=
    fun _ hp => if_pos hp
  have hpattern : ∀ p : Node, p.kind ≠ .keyword → ForRole.next none p = .pattern :=
    fun _ hp => if_neg hp
  induction ns using forClauses.induct generalizing before with
  | case1 => rfl
  | case2 p hp =>
    rw [forClauses, if_pos hp, ForRole.along, hbefore, hmodifier p hp]
    rfl
  | case3 p hp =>
    rw [forClauses, if_neg hp, ForRole.along, hbefore, hpattern p hp]
    rfl
  | case4 p v hp =>
    rw [forClauses, if_pos hp, ForRole.along, hbefore, hmodifier p hp, ForRole.along]
    exact (List.append_nil _).symm
  | case5 p v hp =>
    rw [forClauses, if_neg hp, ForRole.along, hbefore, hpattern p hp]
    rfl
  | case6 p v e ns hp ih =>
    have htail := ih (some (.value p)) fun _ => rfl
    rw [forClauses, if_pos hp, List.map_append, ForRole.along, hbefore, hmodifier p hp,
      ForRole.along, htail]
    rfl
  | case7 p v e ns hp ih =>
    have htail := ih (some .source) fun _ => rfl
    rw [forClauses, if_neg hp, List.map_cons, ForRole.along, hbefore, hpattern p hp,
      ForRole.along, ForRole.along, htail]
    rfl

/-- The patterns that a modifier introduces by the form `f`: the names of a `:let`, and the
    accumulator of a `:reduce`. -/
theorem Tree.exists_mem_modifierClauses_iff {t : Tree} {k f q : Node} :
    (∃ x ∈ t.modifierClauses k f, x.pattern = q) ↔
      f.kind = .vector ∧ ∃ i, f.activeForms[i]? = some q ∧
        (t.text k = ":let" ∧ i % 2 = 0 ∨ t.text k = ":reduce" ∧ i = 0) := by
  rw [modifierClauses]
  by_cases hvector : f.kind = .vector
  · rw [if_neg (not_not_intro hvector)]
    by_cases hlet : t.text k = ":let"
    · simp [hlet, hvector, Clause.exists_mem_ofPairs_iff]
    · by_cases hreduce : t.text k = ":reduce"
      · simp [hreduce, hvector, List.head?_eq_getElem?]
      · simp [hlet, hreduce]
  · simp [hvector]

/-! ### What the clauses of a comprehension bind -/

/-- What a pattern of a form binds, the form binds. -/
theorem ForRole.mem_boundNames_of_mem_patterns {t : Tree} {r : ForRole} {f q s : Node}
    (hq : q ∈ r.patterns t f) (hs : s ∈ t.boundNames q) : s ∈ t.boundNames f := by
  cases r with
  | pattern => rwa [← List.mem_singleton.1 hq]
  | value k =>
    obtain ⟨x, hx, rfl⟩ := List.mem_map.1 hq
    obtain ⟨hvector, i, hi, -⟩ := Tree.exists_mem_modifierClauses_iff.1 ⟨x, hx, rfl⟩
    exact Tree.mem_boundNames_iff.2
      (.inside (.inl hvector) (List.mem_of_getElem? hi) (Tree.mem_boundNames_iff.1 hs))
  | verb | source | modifier => cases hq

namespace Cursor.SymbolIn

variable {c : Cursor} {cs : List Char} {p outer : List Node} {v n : Node}

/-- The clauses of a comprehension bind the symbol at a cursor if the form at the ordinal
    of the cursor does, in its role. -/
theorem exists_mem_forClauses_iff (h : c.SymbolIn cs (p ++ [v]) (n :: outer))
    (hvector : v.kind = .vector) {r : ForRole} (hr : v.forRoles[c.ordinal v]? = some r) :
    (∃ x ∈ (Tree.read cs).forClauses v.activeForms,
        c.location.node ∈ (Tree.read cs).boundNames x.pattern) ↔
      ∃ q ∈ r.patterns (Tree.read cs) (p.getLastD c.location.node),
        c.location.node ∈ (Tree.read cs).boundNames q := by
  have hpatterns := (Tree.read cs).map_pattern_forClauses v.activeForms none fun _ => rfl
  have hf := h.inner.getElem?_ordinal
  constructor
  · rintro ⟨x, hx, hbound⟩
    have hmem := List.mem_map_of_mem (f := Clause.pattern) hx
    rw [hpatterns, List.mem_flatMap] at hmem
    obtain ⟨y, hy, hq⟩ := hmem
    obtain ⟨i, hi⟩ := List.mem_iff_getElem?.1 hy
    obtain ⟨hform, hrole⟩ := List.getElem?_zip_eq_some.1 hi
    have hbinds := ForRole.mem_boundNames_of_mem_patterns hq hbound
    obtain ⟨-, rfl⟩ := (h.mem_boundNames_getElem?_iff h.mem_activeForms hvector hform).1 hbinds
    obtain rfl := Option.some.inj (hr.symm.trans hrole)
    rw [hf, Option.some.injEq] at hform
    rw [hform]
    exact ⟨_, hq, hbound⟩
  · rintro ⟨q, hq, hbound⟩
    have hmem : q ∈ ((Tree.read cs).forClauses v.activeForms).map (·.pattern) := by
      rw [hpatterns, List.mem_flatMap]
      exact ⟨(_, r), List.mem_iff_getElem?.2 ⟨_, List.getElem?_zip_eq_some.2 ⟨hf, hr⟩⟩, hq⟩
    obtain ⟨x, hx, rfl⟩ := List.mem_map.1 hmem
    exact ⟨x, hx, hbound⟩

/-- A modifier binds the symbol if the cursor is at a name of its vector. -/
theorem exists_mem_patterns_value_iff (h : c.SymbolIn cs (p ++ [v]) (n :: outer))
    (hpath : ∀ m ∈ p, m.kind.isPattern = true) {k : Node} :
    (∃ q ∈ (ForRole.value k).patterns (Tree.read cs) (p.getLastD c.location.node),
        c.location.node ∈ (Tree.read cs).boundNames q) ↔
      ∃ f, v.activeForms[c.ordinal v]? = some f ∧ f.kind = .vector ∧
        ((Tree.read cs).text k = ":let" ∧ c.ordinal f % 2 = 0 ∨
          (Tree.read cs).text k = ":reduce" ∧ c.ordinal f = 0) := by
  have hf := h.inner.getElem?_ordinal
  have hmem := List.mem_of_getElem? hf
  constructor
  · rintro ⟨q, hq, hbound⟩
    obtain ⟨x, hx, rfl⟩ := List.mem_map.1 hq
    obtain ⟨hvector, i, hi, hname⟩ := Tree.exists_mem_modifierClauses_iff.1 ⟨x, hx, rfl⟩
    obtain ⟨-, rfl⟩ := (h.inner.mem_boundNames_getElem?_iff hmem hvector hi).1 hbound
    exact ⟨_, hf, hvector, hname⟩
  · rintro ⟨f, hf', hvector, hname⟩
    rw [hf, Option.some.injEq] at hf'
    rcases List.eq_nil_or_concat p with rfl | ⟨p', m, hp⟩
    · rw [← hf', List.getLastD_nil, h.kind_eq] at hvector
      cases hvector
    · rw [List.concat_eq_append] at hp
      subst hp
      rw [List.getLastD_concat] at hf' hmem ⊢
      subst hf'
      have hi := h.inner.inner.getElem?_ordinal
      obtain ⟨x, hx, hpattern⟩ := Tree.exists_mem_modifierClauses_iff.2 ⟨hvector, _, hi, hname⟩
      exact ⟨_, List.mem_map.2 ⟨x, hx, hpattern⟩,
        (h.inner.mem_boundNames_getElem?_iff hmem hvector hi).2 ⟨⟨p', rfl, hpath⟩, rfl⟩⟩

end Cursor.SymbolIn

/-! ### Where the slot and the clauses part -/

namespace Cursor

/-- Whether the form before the cursor in the vector `v` is a keyword. -/
def isAfterKeyword (c : Cursor) (v : Node) : Bool :=
  0 < c.ordinal v && v.activeForms[c.ordinal v - 1]?.any (·.kind == .keyword)

/-- The symbol at the cursor, in the vector `v` of a comprehension, is at a pattern after a
    keyword, at a verb, at a source after a verb that is no keyword, or at a name that a
    modifier binds. -/
def isMisjudged (c : Cursor) (t : Tree) (v : Node) : Bool :=
  match v.forRoles[c.ordinal v]? with
  | some .pattern => c.isAfterKeyword v
  | some .verb => true
  | some .source => !c.isAfterKeyword v
  | some (.value k) => v.activeForms[c.ordinal v]?.any fun f => f.kind == .vector &&
      (t.text k == ":let" && c.ordinal f % 2 == 0 || t.text k == ":reduce" && c.ordinal f == 0)
  | some (.modifier _) | none => false

theorem isAfterKeyword_eq {c : Cursor} {v m : Node} {j : Nat} (hj : c.ordinal v = j + 1)
    (hm : v.activeForms[j]? = some m) : c.isAfterKeyword v = (m.kind == .keyword) := by
  rw [isAfterKeyword, hj, Nat.add_sub_cancel, hm]
  simp

namespace SymbolIn

variable {c : Cursor} {cs : List Char} {p outer : List Node} {v n : Node}

/-- Behind vectors and maps only, the symbol is at a name unless it follows a keyword. -/
theorem isAtName_iff_of_comprehension (h : c.SymbolIn cs (p ++ [v]) (n :: outer))
    (hhead : (Tree.read cs).head? n = some .forIn) (hv : n.bindingVector? = some v) :
    c.IsAtName (Tree.read cs) (p ++ [v]) ⟨n, outer⟩ ↔
      (∀ m ∈ p, m.kind.isPattern = true) ∧ c.isAfterKeyword v = false := by
  have hvector : v.kind = .vector := by simpa using (Option.filter_eq_some_iff.1 hv).2
  have hvalue : c.isAtValue .forIn v = c.isAfterKeyword v := rfl
  rw [h.isAtName_iff_of_alternates hhead rfl, hv]
  simp only [Option.some.injEq, exists_eq_left', List.append_cancel_right_eq, hvalue,
    List.mem_append, List.mem_singleton, or_imp, forall_and, forall_eq, Kind.isPattern_iff,
    hvector, true_or, and_true]

/-- In a comprehension, names and bound symbols agree except where a form is misjudged. -/
theorem isAtName_iff_bound_iff (h : c.SymbolIn cs (p ++ [v]) (n :: outer))
    (hhead : (Tree.read cs).head? n = some .forIn) (hv : n.bindingVector? = some v) :
    (c.IsAtName (Tree.read cs) (p ++ [v]) ⟨n, outer⟩ ↔
        ∃ x ∈ (Tree.read cs).forClauses v.activeForms,
          c.location.node ∈ (Tree.read cs).boundNames x.pattern) ↔
      ¬ ((∀ m ∈ p, m.kind.isPattern = true) ∧ c.isMisjudged (Tree.read cs) v = true) := by
  have hvector : v.kind = .vector := by simpa using (Option.filter_eq_some_iff.1 hv).2
  have hf := h.inner.getElem?_ordinal
  obtain ⟨r, hr⟩ : ∃ r, v.forRoles[c.ordinal v]? = some r := by
    have hlt := (List.getElem?_eq_some_iff.1 hf).1
    rw [← ForRole.length_along none] at hlt
    exact ⟨_, List.getElem?_eq_getElem hlt⟩
  rw [h.isAtName_iff_of_comprehension hhead hv, h.exists_mem_forClauses_iff hvector hr]
  have hlead := h.inner.mem_boundNames_iff
    (v.activeForms_subset_children (List.mem_of_getElem? hf))
  by_cases hpath : ∀ m ∈ p, m.kind.isPattern = true
  · have hbound := hlead.2 ⟨rfl, hpath⟩
    rw [and_iff_right hpath, and_iff_right hpath, isMisjudged, hr]
    rcases ForRole.along_cases hf hr with ⟨rfl, j, m, hj, hm, hkind⟩ | rfl |
      ⟨k, j, rfl, hj, hm, hkind⟩ | ⟨rfl, hkind⟩ | ⟨rfl, -⟩
    · -- a verb, after a pattern
      have hafter : c.isAfterKeyword v = false := by simpa [isAfterKeyword_eq hj hm] using hkind
      simp [ForRole.patterns, hafter]
    · simp [ForRole.patterns]
    · -- a value, after its keyword
      have hafter : c.isAfterKeyword v = true := by simpa [isAfterKeyword_eq hj hm] using hkind
      simp only [h.exists_mem_patterns_value_iff hpath, hafter, Bool.true_eq_false, false_iff,
        Option.any_eq_true, Bool.and_eq_true, Bool.or_eq_true, beq_iff_eq]
    · -- a keyword does not lead to a symbol
      have hnone : (Tree.read cs).boundNames (p.getLastD c.location.node) = [] := by
        apply Tree.boundNames_other <;> rw [hkind] <;> decide
      rw [hnone] at hbound
      cases hbound
    · simp only [ForRole.patterns, List.mem_singleton, exists_eq_left, hbound, iff_true,
        Bool.not_eq_true]
  · -- neither finds a name behind other forms than vectors and maps
    have hunbound : ¬ ∃ q ∈ r.patterns (Tree.read cs) (p.getLastD c.location.node),
        c.location.node ∈ (Tree.read cs).boundNames q := by
      rintro ⟨q, hq, hbound⟩
      exact hpath (hlead.1 (ForRole.mem_boundNames_of_mem_patterns hq hbound)).2
    exact iff_of_true (iff_of_false (fun hname => hpath hname.1) hunbound) fun h => hpath h.1

end SymbolIn

/-- The cursor `c` is at a symbol that nothing deactivates, in the binding vector `v` of the
    comprehension `n`, with the nodes `p` and no call between, within the limits. -/
structure InComprehension (config : Config) (t : Tree) (c : Cursor) (p : List Node) (v n : Node)
    (outer : List Node) : Prop where
  kind_eq : c.location.node.kind = .symbol
  isActive : c.location.IsActive
  above_eq : c.location.above = p ++ v :: n :: outer
  isCall_eq : ∀ m ∈ p, m.kind.isCall = false
  list_eq : n.kind = .list
  head?_eq : t.head? n = some .forIn
  bindingVector?_eq : n.bindingVector? = some v
  depth : p.length + 1 < config.maxTraversalDepth
  limit : ∀ m ∈ v :: p, m.kind = .vector → byteLength (t.chars m) ≤ config.maxVectorText

theorem InComprehension.exists_symbolIn {config : Config} {t : Tree} {c : Cursor}
    {p outer : List Node} {v n : Node} (hc : InComprehension config t c p v n outer)
    (hconfig : config.placeholder = ({} : Config).placeholder) {cs : List Char} {offset : Nat}
    (hcursor : inSource config cs offset = .ok (t, c)) :
    ∃ cs', t = Tree.read cs' ∧ c.SymbolIn cs' (p ++ [v]) (n :: outer) :=
  exists_symbolIn_of_inSource hconfig hcursor hc.kind_eq hc.isActive
    (by rw [hc.above_eq, List.append_cons])

/-- A test that finds a cursor in a comprehension behind `k` vectors and maps. -/
theorem exists_inComprehension (cs : List Char) (offset k : Nat)
    (test : Tree → Cursor → Node → Bool)
    (h : (inSource {} cs offset).toOption.any (fun x =>
      x.2.location.node.kind == .symbol && !x.2.location.isInDeactivated &&
      (x.2.location.above.take k).all (fun m => m.kind.isPattern &&
        decide (byteLength (x.1.chars m) ≤ ({} : Config).maxVectorText)) &&
      (x.2.location.above.drop k).head?.any (fun v => test x.1 x.2 v &&
        decide (byteLength (x.1.chars v) ≤ ({} : Config).maxVectorText) &&
        (x.2.location.above.drop k).tail.head?.any fun n => n.kind == .list &&
          x.1.head? n == some .forIn && n.bindingVector?.any (·.id == v.id))) = true)
    (hk : k + 1 < ({} : Config).maxTraversalDepth) :
    ∃ t c p v n outer, inSource {} cs offset = .ok (t, c) ∧
      InComprehension {} t c p v n outer ∧ (∀ m ∈ p, m.kind.isPattern = true) ∧
      test t c v = true := by
  obtain ⟨t, c, hcursor, h⟩ := exists_of_any_inSource h
  simp only [Bool.and_eq_true, Option.any_eq_true, beq_iff_eq, Bool.not_eq_true',
    List.all_eq_true, decide_eq_true_eq] at h
  obtain ⟨⟨⟨hkind, hoff⟩, hpath⟩, v, hv, ⟨htest, hlimit⟩, n, hn, ⟨hlist, hhead⟩, w, hw, hid⟩ := h
  obtain ⟨rest, hrest⟩ := List.head?_eq_some_iff.1 hv
  rw [hrest, List.tail_cons] at hn
  obtain ⟨outer, rfl⟩ := List.head?_eq_some_iff.1 hn
  have habove : c.location.above = c.location.above.take k ++ v :: n :: outer := by
    rw [← hrest, List.take_append_drop]
  have hactive := Location.isInDeactivated_eq_false_iff.1 hoff
  have hcall : ∀ m ∈ c.location.above.take k, m.kind.isCall = false := by
    intro m hm
    rcases Kind.isPattern_iff.1 (hpath m hm).1 with hkind | hkind <;> rw [hkind] <;> rfl
  have hbinding : n.bindingVector? = some v := by
    obtain ⟨_, -, hsymbol⟩ := exists_symbolIn_of_inSource rfl hcursor hkind hactive
      (by rwa [List.append_cons] at habove)
    refine (hsymbol.any_id_eq_iff (fun m => Tree.mem_activeForms_of_bindingVector?)
      hsymbol.mem_activeForms).1 ?_
    rw [hw, Option.any_some, beq_iff_eq]
    exact hid
  refine ⟨t, c, c.location.above.take k, v, n, outer, hcursor, ?_, fun m hm => (hpath m hm).1,
    htest⟩
  exact
    { kind_eq := hkind
      isActive := hactive
      above_eq := habove
      isCall_eq := hcall
      list_eq := hlist
      head?_eq := hhead
      bindingVector?_eq := hbinding
      depth := Nat.lt_of_le_of_lt (Nat.add_le_add_right (List.length_take_le ..) 1) hk
      limit := fun m hm _ => (List.mem_cons.1 hm).elim (· ▸ hlimit) fun hm => (hpath m hm).2 }

/-- In the vector of a comprehension, the slot of a symbol being that of a name and a clause
    binding the symbol are the same thing, unless the symbol is misjudged; then just one of
    them holds. -/
theorem slot_comprehension_iff_bound_iff {config : Config}
    (hconfig : config.placeholder = ({} : Config).placeholder) {cs : List Char} {offset : Nat}
    {t : Tree} {c : Cursor} (hcursor : inSource config cs offset = .ok (t, c)) {p outer : List Node}
    {v n : Node} (hc : InComprehension config t c p v n outer) :
    ((∃ closed, t.slot config c = .parameterName closed) ↔
        ∃ x ∈ t.forClauses v.activeForms, c.location.node ∈ t.boundNames x.pattern) ↔
      ¬ ((∀ m ∈ p, m.kind.isPattern = true) ∧ c.isMisjudged t v = true) := by
  have hvector : v.kind = .vector := by
    simpa using (Option.filter_eq_some_iff.1 hc.bindingVector?_eq).2
  have hpath : ∀ m ∈ p ++ [v], m.kind.isCall = false := by
    simpa [or_imp, forall_and, hvector, Kind.isCall] using hc.isCall_eq
  obtain ⟨cs', rfl, h⟩ := hc.exists_symbolIn hconfig hcursor
  rw [h.exists_parameterName_iff (by simpa using hc.depth) hc.list_eq hpath
    fun m hm => hc.limit m (by simpa [or_comm] using hm)]
  exact h.isAtName_iff_bound_iff hc.head?_eq hc.bindingVector?_eq

/-- In a pattern after a modifier. -/
theorem slot_comprehension_iff_bound_iff_nested :
    let cs := "(for [x :in xs :when x [y \x7b:k [z ]\x7d] :in y] z)".toList
    ∃ t c p v n outer, inSource {} cs 33 = .ok (t, c) ∧ InComprehension {} t c p v n outer ∧
      c.isMisjudged t v = false ∧ t.slot {} c = .parameterName true ∧
      ∃ x ∈ t.forClauses v.activeForms, c.location.node ∈ t.boundNames x.pattern := by
  intro cs
  obtain ⟨t, c, p, v, n, outer, hcursor, hc, -, htest⟩ :=
    exists_inComprehension cs 33 3
      (fun t c v => !c.isMisjudged t v && t.slot {} c == .parameterName true)
      (by decide +kernel) (by decide)
  simp only [Bool.and_eq_true, Bool.not_eq_true', beq_iff_eq] at htest
  obtain ⟨hjudged, hslot⟩ := htest
  have hagree := (slot_comprehension_iff_bound_iff rfl hcursor hc).2 (by simp [hjudged])
  exact ⟨t, c, p, v, n, outer, hcursor, hc, hjudged, hslot, hagree.1 ⟨true, hslot⟩⟩

/-- The place of a verb has the slot of a name, though nothing is bound there; and a name of
    a `:let` is bound, but its slot is that of an expression. -/
theorem slot_comprehension_ne_bound :
    let cs := "(for [x ])".toList
    let ds := "(for [x :in xs :let []])".toList
    (∃ t c p v n outer, inSource {} cs 8 = .ok (t, c) ∧ InComprehension {} t c p v n outer ∧
      t.slot {} c = .parameterName true ∧
      ¬ ∃ x ∈ t.forClauses v.activeForms, c.location.node ∈ t.boundNames x.pattern) ∧
    ∃ t c p v n outer, inSource {} ds 21 = .ok (t, c) ∧ InComprehension {} t c p v n outer ∧
      t.slot {} c = .expression ∧
      ∃ x ∈ t.forClauses v.activeForms, c.location.node ∈ t.boundNames x.pattern := by
  intro cs ds
  constructor
  · obtain ⟨t, c, p, v, n, outer, hcursor, hc, hpath, htest⟩ := exists_inComprehension cs 8 0
      (fun t c v => c.isMisjudged t v && !c.isAfterKeyword v && t.slot {} c == .parameterName true)
      (by decide +kernel) (by decide)
    simp only [Bool.and_eq_true, Bool.not_eq_true', beq_iff_eq] at htest
    obtain ⟨⟨hmisjudged, hafter⟩, hslot⟩ := htest
    refine ⟨t, c, p, v, n, outer, hcursor, hc, hslot, fun hbound => ?_⟩
    obtain ⟨cs', rfl, h⟩ := hc.exists_symbolIn rfl hcursor
    have hname := (h.isAtName_iff_of_comprehension hc.head?_eq hc.bindingVector?_eq).2
      ⟨hpath, hafter⟩
    exact (h.isAtName_iff_bound_iff hc.head?_eq hc.bindingVector?_eq).1 (iff_of_true hname hbound)
      ⟨hpath, hmisjudged⟩
  · obtain ⟨t, c, p, v, n, outer, hcursor, hc, hpath, htest⟩ := exists_inComprehension ds 21 1
      (fun t c v => c.isMisjudged t v && c.isAfterKeyword v && t.slot {} c == .expression)
      (by decide +kernel) (by decide)
    simp only [Bool.and_eq_true, beq_iff_eq] at htest
    obtain ⟨⟨hmisjudged, hafter⟩, hslot⟩ := htest
    refine ⟨t, c, p, v, n, outer, hcursor, hc, hslot, ?_⟩
    obtain ⟨cs', rfl, h⟩ := hc.exists_symbolIn rfl hcursor
    have hname := mt (h.isAtName_iff_of_comprehension hc.head?_eq hc.bindingVector?_eq).1
      (fun hname => by rw [hafter] at hname; cases hname.2)
    exact Classical.byContradiction fun hunbound =>
      (h.isAtName_iff_bound_iff hc.head?_eq hc.bindingVector?_eq).1 (iff_of_false hname hunbound)
        ⟨hpath, hmisjudged⟩

end Cursor

end Typeahead
