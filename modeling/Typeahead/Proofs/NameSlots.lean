import Typeahead.Proofs.Binders
import Typeahead.Proofs.CallSlots

/-!
# Name slots are bound

Two walks decide about a symbol inside a binding form. The rule of the slot goes up
from the cursor, through vectors and maps, to the vector where the list around them
binds names; the names that the list binds are found downwards, through its clauses
and the patterns in them. Both are compared with what stands between the list and the
symbol: vectors and maps only (`Kind.isPattern`), and the form that leads to the symbol
(`List.getLastD`) at a place for names.

* `Cursor.SymbolIn.mem_boundNames_iff`: when a pattern binds the symbol at a cursor;
* `Cursor.SymbolIn.exists_parameterName_iff`: when the slot is that of a name;
* `Cursor.slot_parameterName_iff_bound`: for functions and for bindings of names and
  values in turn, the two agree.
-/

namespace Typeahead

/-- Whether a node of this kind binds the symbols inside it where it is a pattern. -/
def Kind.isPattern (k : Kind) : Bool := k == .vector || k == .map

theorem Kind.isPattern_iff {k : Kind} : k.isPattern = true ↔ k = .vector ∨ k = .map := by
  simp [isPattern]

namespace Location

/-- The locations of the nodes `path` inside the nodes `outer`, innermost first. -/
def spine : (path outer : List Node) → List Location
  | [], _ => []
  | m :: path, outer => ⟨m, path ++ outer⟩ :: spine path outer

theorem chain_append (path outer : List Node) :
    chain (path ++ outer) = spine path outer ++ chain outer := by
  induction path with
  | nil => rfl
  | cons m path ih => rw [List.cons_append, chain, spine, ih, List.cons_append]

theorem length_spine (path outer : List Node) : (spine path outer).length = path.length := by
  induction path with
  | nil => rfl
  | cons m path ih => rw [spine, List.length_cons, List.length_cons, ih]

theorem spine_append (p q outer : List Node) :
    spine (p ++ q) outer = spine p (q ++ outer) ++ spine q outer := by
  induction p with
  | nil => rfl
  | cons m p ih => rw [List.cons_append, spine, spine, ih, List.append_assoc, List.cons_append]

theorem getLast?_spine_concat (p : List Node) (v : Node) (outer : List Node) :
    (spine (p ++ [v]) outer).getLast? = some ⟨v, outer⟩ := by
  rw [spine_append, List.getLast?_append]
  rfl

/-- Going up while a property of the nodes holds stops where the nodes stop having it. -/
theorem takeWhile_spine (f : Node → Bool) (path outer : List Node) :
    (spine path outer).takeWhile (fun l => f l.node) =
      spine (path.takeWhile f) (path.dropWhile f ++ outer) := by
  induction path with
  | nil => rfl
  | cons m path ih =>
    rw [spine, List.takeWhile_cons, List.takeWhile_cons, List.dropWhile_cons]
    split
    · rw [ih, spine, ← List.append_assoc, List.takeWhile_append_dropWhile]
    · rfl

end Location

/-- A symbol that a pattern binds is inside it, below vectors and maps only. -/
theorem Tree.BindsSymbol.exists_path {t : Tree} {p s : Node} (h : t.BindsSymbol p s)
    {above : List Node} (hp : ⟨p, above⟩ ∈ t.locations) :
    ∃ path, ⟨s, path ++ above⟩ ∈ t.locations ∧ p = path.getLastD s ∧
      ∀ m ∈ path, m.kind.isPattern = true := by
  induction h generalizing above with
  | symbol => exact ⟨[], hp, rfl, fun m hm => absurd hm List.not_mem_nil⟩
  | @inside p n s hkind hn _ ih =>
    have hchild := Tree.children_subset_locations hp
      (List.mem_map.2 ⟨n, p.activeForms_subset_children hn, rfl⟩)
    obtain ⟨path, hs, -, hpath⟩ := ih hchild
    refine ⟨path ++ [p], ?_, List.getLastD_concat.symm, fun m hm => ?_⟩
    · rwa [List.append_assoc]
    · rcases List.mem_append.1 hm with hm | hm
      · exact hpath m hm
      · rw [List.mem_singleton.1 hm]
        exact Kind.isPattern_iff.2 hkind

/-- The patterns of names and values in turn are the forms at even places. -/
theorem Clause.exists_mem_ofPairs_iff {p : Node} {ns : List Node} :
    (∃ x ∈ ofPairs ns, x.pattern = p) ↔ ∃ i, ns[i]? = some p ∧ i % 2 = 0 := by
  induction ns using ofPairs.induct with
  | case1 => simp [ofPairs]
  | case2 q =>
    simp only [ofPairs, List.mem_singleton, exists_eq_left, atEnd]
    constructor
    · rintro rfl
      exact ⟨0, rfl, rfl⟩
    · rintro ⟨i, hi, -⟩
      exact List.mem_singleton.1 (List.mem_of_getElem? hi) |>.symm
  | case3 q v ns ih =>
    simp only [ofPairs, List.mem_cons, exists_eq_or_imp, ih]
    constructor
    · rintro (rfl | ⟨i, hi, heven⟩)
      · exact ⟨0, rfl, rfl⟩
      · exact ⟨i + 2, hi, by omega⟩
    · rintro ⟨i, hi, heven⟩
      cases i with
      | zero => exact .inl (Option.some.inj hi)
      | succ i =>
        cases i with
        | zero => cases heven
        | succ i => exact .inr ⟨i, hi, by omega⟩

/-! ### Slots that only one rule gives -/

/-- Whether the slot is one inside a binding vector or a namespace declaration. -/
def Slot.isInside : Slot → Bool
  | .parameterName _ | .inNamespace _ => true
  | _ => false

namespace Tree

variable {t : Tree} {config : Config} {c : Cursor} {closed : Bool}

theorem head?_eq_none {n first : Node} (hfirst : n.activeForms.head? = some first)
    (hvector : first.kind = .vector) : t.head? n = none := by
  simp [head?, hfirst, hvector]

/-- A list with a head of its own has the clauses of its head. -/
theorem clausesAt_of_head? {n : Node} {outer : List Node} {hd : Head} (h : t.head? n = some hd) :
    t.clausesAt ⟨n, outer⟩ = t.headClauses n hd := by
  rw [clausesAt, h]
  rw [head?] at h
  cases hfirst : n.activeForms.head? with
  | none =>
    rw [hfirst] at h
    cases h
  | some first =>
    rw [hfirst] at h
    by_cases hsymbol : first.kind = .symbol
    · simp [hsymbol]
    · simp [hsymbol] at h

theorem isInside_callSlot? (ns : List Node) :
    ∀ s ∈ t.callSlot? config c ns, s.isInside = false := by
  induction ns with
  | nil => simp [callSlot?]
  | cons n ns ih =>
    rw [callSlot?]
    split
    · simp [Slot.isInside]
    · exact ih
    · split
      · dsimp only
        split <;> simp [Slot.isInside]
      · simp [Slot.isInside]
      · exact ih

/-- Two rules give the slots inside a binding vector or a namespace declaration. -/
theorem rule_of_isInside (h : (t.slot config c).isInside = true) :
    t.bindingSlot? config c = some (t.slot config c) ∨
      t.namespaceSlot? config c = some (t.slot config c) := by
  have hkeyword : ∀ s ∈ c.keywordSlot?, s.isInside = false := by
    rw [Cursor.keywordSlot?]
    split <;> simp [Slot.isInside]
  have hform : ∀ s ∈ c.newFormSlot? config.maxTraversalDepth, s.isInside = false := by
    rw [Cursor.newFormSlot?]
    split <;> simp [Slot.isInside]
  have hvector : ∀ s ∈ t.parameterVectorSlot? config c, s.isInside = false := by
    rw [parameterVectorSlot?]
    cases t.functionAround? config c with
    | none => simp
    | some x =>
      simp only [bind, Option.bind]
      split <;> simp [Slot.isInside]
  have hdefinition : ∀ s ∈ t.definitionSlot? config c, s.isInside = false := by
    rw [definitionSlot?]
    cases (c.calls config.maxTraversalDepth).head? with
    | none => simp
    | some n =>
      simp only [bind, Option.bind]
      split <;> simp [Slot.isInside]
  -- some rule gives the slot, and no other can be it
  obtain ⟨rule, hrule, hslot⟩ : ∃ rule ∈ [c.keywordSlot?, c.newFormSlot? config.maxTraversalDepth,
      t.parameterVectorSlot? config c, t.bindingSlot? config c, t.definitionSlot? config c,
      t.namespaceSlot? config c, t.callSlot? config c (c.calls config.maxTraversalDepth)],
      rule = some (t.slot config c) := by
    obtain ⟨s, hs⟩ : ∃ s, t.slot config c = s := ⟨_, rfl⟩
    rw [hs] at h ⊢
    rw [slot, Option.getD_eq_iff] at hs
    rcases hs with hs | ⟨-, rfl⟩
    · exact List.exists_of_findSome?_eq_some hs
    · cases h
  have hnot : ∀ {r : Option Slot}, (∀ s ∈ r, s.isInside = false) → r ≠ some (t.slot config c) := by
    rintro r hr rfl
    rw [hr _ rfl] at h
    cases h
  simp only [List.mem_cons, List.not_mem_nil, or_false] at hrule
  rcases hrule with rfl | rfl | rfl | rfl | rfl | rfl | rfl
  · exact absurd hslot (hnot hkeyword)
  · exact absurd hslot (hnot hform)
  · exact absurd hslot (hnot hvector)
  · exact .inl hslot
  · exact absurd hslot (hnot hdefinition)
  · exact .inr hslot
  · exact absurd hslot (hnot (isInside_callSlot? _))

/-- Only the rule of binding vectors gives the slot of a name. -/
theorem bindingSlot?_of_slot_eq (h : t.slot config c = .parameterName closed) :
    t.bindingSlot? config c = some (.parameterName closed) := by
  have hrule := rule_of_isInside (t := t) (c := c) (by rw [h]; rfl)
  rw [h] at hrule
  refine hrule.resolve_right fun hnamespace => ?_
  rw [namespaceSlot?] at hnamespace
  cases hns : t.namespaceAround? config c with
  | none => simp [hns] at hnamespace
  | some ns =>
    simp only [hns, bind, Option.bind] at hnamespace
    split at hnamespace <;> simp at hnamespace

/-- Only the rule of namespace declarations gives a slot inside one. -/
theorem namespaceSlot?_of_slot_eq {clause : NsClause}
    (h : t.slot config c = .inNamespace clause) :
    t.namespaceSlot? config c = some (.inNamespace clause) := by
  have hrule := rule_of_isInside (t := t) (c := c) (by rw [h]; rfl)
  rw [h] at hrule
  refine hrule.resolve_left fun hbinding => ?_
  obtain ⟨outermost, -, hbinding⟩ := Option.bind_eq_some_iff.1 hbinding
  obtain ⟨list, -, hbinding⟩ := Option.bind_eq_some_iff.1 hbinding
  split at hbinding
  · cases hbinding
  split at hbinding <;> cases hbinding

end Tree

namespace Cursor

/-- The cursor `c` is at a symbol that nothing deactivates, with the nodes `path`
    between it and the nodes `outer`; the symbol is no sign for the rest of the
    arguments. -/
structure SymbolIn (c : Cursor) (cs : List Char) (path outer : List Node) : Prop where
  stands : c.StandsIn cs
  kind_eq : c.location.node.kind = .symbol
  isActive : c.location.IsActive
  text_ne : (Tree.read cs).text c.location.node ≠ "&" ∧
    (Tree.read cs).text c.location.node ≠ "..."
  above_eq : c.location.above = path ++ outer

/-- Vectors and maps only, the nodes `path`, stand between the cursor and the list at `l`;
    the outermost of them is a vector where the list binds names, and the cursor is not at
    a value there. -/
def IsAtName (c : Cursor) (t : Tree) (path : List Node) (l : Location) : Prop :=
  ∃ p v, path = p ++ [v] ∧ v.kind = .vector ∧ (∀ m ∈ path, m.kind.isPattern = true) ∧
    t.isBindingVector l v = true ∧ (t.head? l.node).any (c.isAtValue · v) = false

namespace SymbolIn

variable {c : Cursor} {cs : List Char} {path outer : List Node} {v : Node}

theorem isWord (h : c.SymbolIn cs path outer) : c.location.node.kind.isWord = true := by
  rw [h.kind_eq]
  rfl

/-- The symbol is also in the outermost of the nodes between. -/
theorem inner (h : c.SymbolIn cs (path ++ [v]) outer) : c.SymbolIn cs path (v :: outer) :=
  { h with above_eq := by rw [h.above_eq, List.append_assoc, List.singleton_append] }

theorem getElem?_ordinal (h : c.SymbolIn cs path (v :: outer)) :
    v.activeForms[c.ordinal v]? = some (path.getLastD c.location.node) :=
  h.stands.getElem?_ordinal h.isWord h.isActive h.above_eq

theorem eq_ordinal (h : c.SymbolIn cs path (v :: outer)) {i : Nat}
    (hi : v.activeForms[i]? = some (path.getLastD c.location.node)) : c.ordinal v = i :=
  h.stands.eq_ordinal_of_getElem? h.isWord h.isActive h.above_eq hi

/-- Vectors and maps around the symbol bind it where they are patterns. -/
theorem bindsSymbol_lead {r : List Node} (h : c.SymbolIn cs r.reverse outer)
    (hr : ∀ m ∈ r, m.kind.isPattern = true) :
    (Tree.read cs).BindsSymbol (r.reverse.getLastD c.location.node) c.location.node := by
  induction r generalizing outer with
  | nil => exact .symbol h.kind_eq h.text_ne.1 h.text_ne.2
  | cons m r ih =>
    rw [List.reverse_cons] at h ⊢
    rw [List.getLastD_concat]
    exact .inside (Kind.isPattern_iff.1 (hr m List.mem_cons_self))
      (List.mem_of_getElem? h.inner.getElem?_ordinal)
      (ih h.inner fun k hk => hr k (List.mem_cons_of_mem _ hk))

/-- A form of a node around the cursor binds the symbol there, as a pattern, if it leads
    to the symbol through vectors and maps only. -/
theorem mem_boundNames_iff (h : c.SymbolIn cs path (v :: outer)) {p : Node}
    (hp : p ∈ v.children) :
    c.location.node ∈ (Tree.read cs).boundNames p ↔
      p = path.getLastD c.location.node ∧ ∀ m ∈ path, m.kind.isPattern = true := by
  rw [Tree.mem_boundNames_iff]
  constructor
  · intro hbinds
    have hv : ⟨v, outer⟩ ∈ (Tree.read cs).locations :=
      Tree.selfAndAncestors_subset_locations h.stands.mem (List.mem_cons_of_mem _ (by
        rw [Location.ancestors, h.above_eq]
        exact Location.mem_chain_append v path outer))
    have hloc := Tree.children_subset_locations hv (List.mem_map.2 ⟨p, hp, rfl⟩)
    obtain ⟨path', hs, hlead, hpath⟩ := hbinds.exists_path hloc
    -- the symbol has one place in the tree, so the way down is the way up
    have heq := congrArg Location.above (Tree.location_eq_of_id_eq hs h.stands.mem rfl)
    rw [h.above_eq] at heq
    obtain rfl : path' = path := List.append_cancel_right heq
    exact ⟨hlead, hpath⟩
  · rintro ⟨rfl, hpath⟩
    have hreverse : c.SymbolIn cs path.reverse.reverse (v :: outer) := by
      rwa [List.reverse_reverse]
    have hbinds := hreverse.bindsSymbol_lead fun m hm => hpath m (List.mem_reverse.1 hm)
    rwa [List.reverse_reverse] at hbinds

/-! ### The rule of binding vectors -/

variable {n : Node} {t : Tree} {config : Config}

/-- The nodes around the cursor, as far as they are looked at. -/
theorem exists_around_eq (h : c.SymbolIn cs path (n :: outer)) {depth : Nat}
    (hdepth : path.length < depth) :
    ∃ ls, c.around depth = Location.spine path (n :: outer) ++ ⟨n, outer⟩ :: ls := by
  have hkind : (c.location.node.kind.isCollection || c.location.node.kind == .root) = false := by
    rw [h.kind_eq]
    rfl
  obtain ⟨k, rfl⟩ := Nat.exists_eq_add_of_lt hdepth
  refine ⟨(Location.chain outer).take k, ?_⟩
  have hlength := Location.length_spine path (n :: outer)
  simp only [around, hkind, Bool.false_eq_true, if_false, Location.ancestors, h.above_eq]
  rw [Location.chain_append, Location.chain, List.take_append, hlength,
    List.take_of_length_le (by omega), Nat.add_assoc, Nat.add_sub_cancel_left, List.take_succ_cons]

/-- The vectors and maps that the rule of binding vectors goes up through. -/
theorem exists_patterns_eq (h : c.SymbolIn cs path (n :: outer)) {depth : Nat}
    (hdepth : path.length < depth) (hn : n.kind.isPattern = false) :
    (c.around depth).takeWhile (fun l => l.node.kind == .vector || l.node.kind == .map) =
      Location.spine (path.takeWhile (·.kind.isPattern))
        (path.dropWhile (·.kind.isPattern) ++ n :: outer) := by
  obtain ⟨ls, haround⟩ := h.exists_around_eq hdepth
  have hstop : (Location.mk n outer :: ls).takeWhile
      (fun l => l.node.kind == .vector || l.node.kind == .map) = [] :=
    List.takeWhile_cons_of_neg (by rw [Bool.not_eq_true]; exact hn)
  have hspine := Location.takeWhile_spine (·.kind.isPattern) path (n :: outer)
  rw [haround, List.takeWhile_append, hstop]
  split
  · next hall =>
    rw [List.append_nil, ← hspine]
    exact ((List.takeWhile_prefix _).eq_of_length hall).symm
  · exact hspine

/-- What the rule of binding vectors says when going up ends at the node `v`, directly
    inside the node `m`. -/
theorem exists_bindingSlot?_iff_of_getLast? {m : Node} {rest : List Node}
    (hlast : ((c.around config.maxTraversalDepth).takeWhile
      fun l => l.node.kind == .vector || l.node.kind == .map).getLast? = some ⟨v, m :: rest⟩)
    (hlimit : v.kind = .vector → byteLength (t.chars v) ≤ config.maxVectorText) :
    (∃ closed, t.bindingSlot? config c = some (.parameterName closed)) ↔
      v.kind = .vector ∧ m.kind = .list ∧ t.isBindingVector ⟨m, rest⟩ v = true ∧
        (t.head? m).any (c.isAtValue · v) = false := by
  simp only [Tree.bindingSlot?, hlast, bind, Option.bind, Location.parent?, Bool.or_eq_true,
    decide_eq_true_eq, Bool.not_eq_true']
  split
  · next hnot =>
    constructor
    · rintro ⟨_, ⟨⟩⟩
    · rintro ⟨hv, hm, hbinds, -⟩
      rcases hnot with ((hnot | hnot) | hnot) | hnot
      · exact absurd hv hnot
      · exact absurd hm hnot
      · exact absurd (hlimit hv) (Nat.not_le.2 hnot)
      · rw [hbinds] at hnot
        cases hnot
  · next hnot =>
    rw [not_or, not_or, not_or, Decidable.not_not, Decidable.not_not, Bool.not_eq_false] at hnot
    obtain ⟨⟨⟨hv, hm⟩, -⟩, hbinds⟩ := hnot
    split
    · next hvalue =>
      constructor
      · rintro ⟨_, ⟨⟩⟩
      · rintro ⟨-, -, -, hname⟩
        rw [hvalue] at hname
        cases hname
    · next hvalue =>
      exact ⟨fun _ => ⟨hv, hm, hbinds, Bool.eq_false_iff.2 hvalue⟩, fun _ => ⟨_, rfl⟩⟩

/-- What the rule of binding vectors says when it goes up through `ps` to the node `m`. -/
theorem exists_bindingSlot?_iff_of_patterns {m : Node} {ps rest : List Node}
    (hpatterns : ((c.around config.maxTraversalDepth).takeWhile
      fun l => l.node.kind == .vector || l.node.kind == .map) = Location.spine ps (m :: rest))
    (hlimit : ∀ v ∈ ps, v.kind = .vector → byteLength (t.chars v) ≤ config.maxVectorText) :
    (∃ closed, t.bindingSlot? config c = some (.parameterName closed)) ↔
      ∃ p v, ps = p ++ [v] ∧ v.kind = .vector ∧ m.kind = .list ∧
        t.isBindingVector ⟨m, rest⟩ v = true ∧ (t.head? m).any (c.isAtValue · v) = false := by
  rcases List.eq_nil_or_concat ps with rfl | ⟨p, v, hconcat⟩
  · rw [Tree.bindingSlot?, hpatterns]
    constructor
    · rintro ⟨_, ⟨⟩⟩
    · rintro ⟨p, v, happ, -⟩
      exact absurd happ.symm (by simp)
  · rw [List.concat_eq_append] at hconcat
    subst hconcat
    have hlast := congrArg List.getLast? hpatterns
    rw [Location.getLast?_spine_concat] at hlast
    rw [exists_bindingSlot?_iff_of_getLast? hlast (hlimit v (by simp))]
    constructor
    · exact fun hname => ⟨p, v, rfl, hname⟩
    · rintro ⟨p', v', happ, hname⟩
      obtain ⟨-, hvs⟩ := List.append_inj' happ rfl
      obtain rfl : v = v' := List.singleton_inj.1 hvs
      exact hname

/-- When the rule of binding vectors finds a name. -/
theorem exists_bindingSlot?_iff (h : c.SymbolIn cs path (n :: outer))
    (hdepth : path.length < config.maxTraversalDepth) (hlist : n.kind = .list)
    (hpath : ∀ m ∈ path, m.kind.isCall = false)
    (hlimit : ∀ m ∈ path, m.kind = .vector → byteLength (t.chars m) ≤ config.maxVectorText) :
    (∃ closed, t.bindingSlot? config c = some (.parameterName closed)) ↔
      c.IsAtName t path ⟨n, outer⟩ := by
  have hn : n.kind.isPattern = false := by
    rw [hlist]
    rfl
  have hpatterns := h.exists_patterns_eq hdepth hn
  have hsplit := List.takeWhile_append_dropWhile (p := (·.kind.isPattern)) (l := path)
  have hmem : ∀ m ∈ path.takeWhile (·.kind.isPattern), m ∈ path := fun m hm =>
    hsplit ▸ List.mem_append_left _ hm
  cases hrest : path.dropWhile (·.kind.isPattern) with
  | nil =>
    -- going up ends at the list
    rw [hrest, List.append_nil] at hsplit
    have hall : ∀ m ∈ path, m.kind.isPattern = true := by
      rw [← hsplit]
      exact fun m hm => List.all_eq_true.1 List.all_takeWhile m hm
    rw [hrest, hsplit, List.nil_append] at hpatterns
    rw [exists_bindingSlot?_iff_of_patterns hpatterns hlimit]
    constructor
    · rintro ⟨p, v, happ, hv, -, hbinds, hname⟩
      exact ⟨p, v, happ, hv, hall, hbinds, hname⟩
    · rintro ⟨p, v, happ, hv, -, hbinds, hname⟩
      exact ⟨p, v, happ, hv, hlist, hbinds, hname⟩
  | cons m rest =>
    -- going up ends at a set or a quoted form, which is no list
    have hm : m ∈ path := by
      rw [← hsplit, hrest]
      simp
    have hnot : m.kind.isPattern = false := by
      have hhead := List.head?_dropWhile_not (·.kind.isPattern) path
      rw [hrest] at hhead
      simpa using hhead
    rw [hrest, List.cons_append] at hpatterns
    rw [exists_bindingSlot?_iff_of_patterns hpatterns fun v hv => hlimit v (hmem v hv)]
    constructor
    · rintro ⟨_, _, -, -, hkind, -⟩
      have hcall := hpath m hm
      rw [hkind] at hcall
      cases hcall
    · rintro ⟨-, -, -, -, hall, -⟩
      rw [hall m hm] at hnot
      cases hnot

/-- When the slot of a symbol inside a list is that of a name. -/
theorem exists_parameterName_iff (h : c.SymbolIn cs path (n :: outer))
    (hdepth : path.length < config.maxTraversalDepth) (hlist : n.kind = .list)
    (hpath : ∀ m ∈ path, m.kind.isCall = false)
    (hlimit : ∀ m ∈ path, m.kind = .vector → byteLength (t.chars m) ≤ config.maxVectorText) :
    (∃ closed, t.slot config c = .parameterName closed) ↔
      c.IsAtName t path ⟨n, outer⟩ := by
  rw [← h.exists_bindingSlot?_iff hdepth hlist hpath hlimit]
  constructor
  · rintro ⟨closed, hslot⟩
    exact ⟨closed, Tree.bindingSlot?_of_slot_eq hslot⟩
  rintro ⟨closed, hbinding⟩
  refine ⟨closed, ?_⟩
  obtain ⟨p, v, rfl, -⟩ :=
    (h.exists_bindingSlot?_iff hdepth hlist hpath hlimit).1 ⟨closed, hbinding⟩
  have hkeyword : c.keywordSlot? = none := by
    refine if_neg ?_
    rw [h.kind_eq]
    decide
  have hform : c.newFormSlot? config.maxTraversalDepth = none := by
    obtain ⟨ls, haround⟩ := h.exists_around_eq hdepth
    have hcalls : n ∈ c.calls config.maxTraversalDepth := by
      rw [calls, haround, List.mem_filter]
      refine ⟨List.mem_map.2 ⟨⟨n, outer⟩, by simp, rfl⟩, ?_⟩
      rw [hlist]
      rfl
    rw [newFormSlot?, if_neg]
    simp [List.ne_nil_of_mem hcalls]
  have hvector : t.parameterVectorSlot? config c = none := by
    obtain ⟨q, above, happ⟩ := List.exists_cons_of_ne_nil (List.append_ne_nil_of_right_ne_nil p
      (List.cons_ne_nil v []))
    have habove : c.location.above = q :: (above ++ n :: outer) := by
      rw [h.above_eq, happ, List.cons_append]
    exact h.stands.parameterVectorSlot?_eq_none (Nat.zero_lt_of_lt hdepth) h.isWord h.isActive
      habove (hpath q (by simp [happ]))
  rw [Tree.slot, hkeyword, hform, hvector, hbinding]
  rfl

/-! ### The vectors where a list binds names -/

theorem mem_activeForms {p : List Node} (h : c.SymbolIn cs (p ++ [v]) (n :: outer)) :
    v ∈ n.activeForms := by
  have hlead := h.getElem?_ordinal
  rw [List.getLastD_concat] at hlead
  exact List.mem_of_getElem? hlead

/-- The forms of a node around the cursor are told apart by their numbers. -/
theorem any_id_eq_iff (h : c.SymbolIn cs path (n :: outer)) {o : Option Node}
    (ho : ∀ m, o = some m → m ∈ n.activeForms) (hv : v ∈ n.activeForms) :
    o.any (·.id == v.id) = true ↔ o = some v := by
  have hmem : ∀ m ∈ n.activeForms, m ∈ (Tree.read cs).nodes := fun m hm =>
    Tree.mem_nodes_of_mem_children
      (Tree.mem_nodes_of_mem_above h.stands.mem (by simp [h.above_eq]))
      (n.activeForms_subset_children hm)
  cases o with
  | none => simp
  | some m =>
    rw [Option.any_some, beq_iff_eq, Option.some.injEq]
    constructor
    · exact Tree.eq_of_id_eq (hmem m (ho m rfl)) (hmem v hv)
    · rintro rfl
      rfl

/-- A vector where a list binds names is the parameter or the binding vector that the
    head of the list asks for, or the first form of an arity. -/
theorem isBindingVector_iff {p : List Node} (h : c.SymbolIn cs (p ++ [v]) (n :: outer)) :
    (Tree.read cs).isBindingVector ⟨n, outer⟩ v = true ↔
      (∃ hd, (Tree.read cs).head? n = some hd ∧
        if hd.parameterSlot?.isSome then n.parameterVector? = some v
        else hd.alternates = true ∧ n.bindingVector? = some v) ∨
      n.activeForms.head? = some v ∧ ∃ f, outer.head? = some f ∧ f.kind = .list ∧
        (((Tree.read cs).head? f).bind (·.parameterSlot?)).isSome = true := by
  have hv := h.mem_activeForms
  have hparameters := h.any_id_eq_iff (fun m => Tree.mem_activeForms_of_parameterVector?) hv
  have hbindings := h.any_id_eq_iff (fun m => Tree.mem_activeForms_of_bindingVector?) hv
  have hfirst := h.any_id_eq_iff (fun m => List.mem_of_mem_head?) hv
  rw [Tree.isBindingVector, Bool.or_eq_true, Bool.and_eq_true, hfirst, Option.any_eq_true]
  refine or_congr ?_ (and_congr_right fun _ => ?_)
  · cases (Tree.read cs).head? n with
    | none => simp
    | some hd =>
      simp only [Option.some.injEq, exists_eq_left']
      split
      · exact hparameters
      · rw [Bool.and_eq_true, hbindings]
  · simp only [Bool.and_eq_true, beq_iff_eq]

/-! ### The names that clauses bind -/

/-- A vector directly in the list binds the symbol, as a pattern, if it leads to the
    symbol through vectors and maps only. -/
theorem mem_boundNames_vector_iff (h : c.SymbolIn cs path (n :: outer)) (hv : v ∈ n.activeForms)
    (hvector : v.kind = .vector) :
    c.location.node ∈ (Tree.read cs).boundNames v ↔
      ∃ p, path = p ++ [v] ∧ ∀ m ∈ path, m.kind.isPattern = true := by
  rw [h.mem_boundNames_iff (n.activeForms_subset_children hv)]
  constructor
  · rintro ⟨hlead, hpath⟩
    rcases List.eq_nil_or_concat path with rfl | ⟨p, w, hconcat⟩
    · rw [hlead, List.getLastD_nil, h.kind_eq] at hvector
      cases hvector
    · rw [List.concat_eq_append] at hconcat
      rw [hconcat, List.getLastD_concat] at hlead
      exact ⟨p, by rw [hconcat, hlead], hpath⟩
  · rintro ⟨p, rfl, hpath⟩
    exact ⟨List.getLastD_concat.symm, hpath⟩

/-- A form of a vector directly in the list binds the symbol, as a pattern, if vectors and
    maps only, from that vector on, lead to the symbol, and the form is at the ordinal of
    the cursor. -/
theorem mem_boundNames_getElem?_iff (h : c.SymbolIn cs path (n :: outer)) (hv : v ∈ n.activeForms)
    (hvector : v.kind = .vector) {i : Nat} {p : Node} (hi : v.activeForms[i]? = some p) :
    c.location.node ∈ (Tree.read cs).boundNames p ↔
      (∃ q, path = q ++ [v] ∧ ∀ m ∈ path, m.kind.isPattern = true) ∧ c.ordinal v = i := by
  have hp := List.mem_of_getElem? hi
  constructor
  · intro hbound
    have hwhole : c.location.node ∈ (Tree.read cs).boundNames v :=
      Tree.mem_boundNames_iff.2 (.inside (.inl hvector) hp (Tree.mem_boundNames_iff.1 hbound))
    obtain ⟨q, rfl, hpath⟩ := (h.mem_boundNames_vector_iff hv hvector).1 hwhole
    have hlead := (h.inner.mem_boundNames_iff (v.activeForms_subset_children hp)).1 hbound
    exact ⟨⟨q, rfl, hpath⟩, h.inner.eq_ordinal (by rw [hi, hlead.1])⟩
  · rintro ⟨⟨q, rfl, hpath⟩, hordinal⟩
    have hlead := h.inner.getElem?_ordinal
    rw [hordinal, hi, Option.some.injEq] at hlead
    exact (h.inner.mem_boundNames_iff (v.activeForms_subset_children hp)).2
      ⟨hlead, fun m hm => hpath m (List.mem_append_left _ hm)⟩

/-- The clauses of names and values in turn bind the symbol if the ordinal of the cursor
    is even. -/
theorem exists_mem_ofPairs_iff (h : c.SymbolIn cs path (n :: outer)) (hv : v ∈ n.activeForms)
    (hvector : v.kind = .vector) :
    (∃ x ∈ Clause.ofPairs v.activeForms, c.location.node ∈ (Tree.read cs).boundNames x.pattern) ↔
      (∃ q, path = q ++ [v] ∧ ∀ m ∈ path, m.kind.isPattern = true) ∧ c.ordinal v % 2 = 0 := by
  constructor
  · rintro ⟨x, hx, hbound⟩
    obtain ⟨i, hi, heven⟩ := Clause.exists_mem_ofPairs_iff.1 ⟨x, hx, rfl⟩
    obtain ⟨hpath, rfl⟩ := (h.mem_boundNames_getElem?_iff hv hvector hi).1 hbound
    exact ⟨hpath, heven⟩
  · rintro ⟨⟨q, rfl, hpath⟩, heven⟩
    have hi := h.inner.getElem?_ordinal
    obtain ⟨x, hx, hpattern⟩ := Clause.exists_mem_ofPairs_iff.2 ⟨_, hi, heven⟩
    rw [← hpattern] at hi
    exact ⟨x, hx, (h.mem_boundNames_getElem?_iff hv hvector hi).2 ⟨⟨q, rfl, hpath⟩, rfl⟩⟩

end SymbolIn

/-! ### Lists that bind names -/

namespace SymbolIn

variable {c : Cursor} {cs : List Char} {path outer : List Node} {n : Node} {hd : Head}

/-- The names of a function are the symbols of its parameter vector. -/
theorem isAtName_iff_of_function (h : c.SymbolIn cs path (n :: outer))
    (hhead : (Tree.read cs).head? n = some hd) (hroot : hd.isScopeRoot = true) :
    c.IsAtName (Tree.read cs) path ⟨n, outer⟩ ↔
      ∃ x ∈ (Tree.read cs).clausesAt ⟨n, outer⟩,
        c.location.node ∈ (Tree.read cs).boundNames x.2.pattern := by
  have hslot : hd.parameterSlot?.isSome = true := by
    cases hd <;> first | rfl | cases hroot
  have hpairs : hd.alternates = false := by
    cases hd <;> first | rfl | cases hroot
  rw [Tree.clausesAt_of_head? hhead, Binder.headClauses_function _ _ hroot]
  constructor
  · rintro ⟨p, v, rfl, hvector, hpath, hbinds, -⟩
    rcases h.isBindingVector_iff.1 hbinds with ⟨hd', hhead', hv⟩ | ⟨hfirst, -⟩
    · obtain rfl : hd = hd' := Option.some.inj (hhead.symm.trans hhead')
      rw [if_pos hslot] at hv
      exact ⟨_, by rw [hv]; exact List.mem_singleton_self _,
        (h.mem_boundNames_vector_iff h.mem_activeForms hvector).2 ⟨p, rfl, hpath⟩⟩
    · rw [Tree.head?_eq_none hfirst hvector] at hhead
      cases hhead
  · rintro ⟨x, hx, hbound⟩
    obtain ⟨v, hv, rfl⟩ : ∃ v, n.parameterVector? = some v ∧ x = (.parameter, .atEnd v) := by
      simpa [eq_comm (a := x)] using hx
    have hvector : v.kind = .vector := by simpa using List.find?_some hv
    obtain ⟨p, rfl, hpath⟩ := (h.mem_boundNames_vector_iff
      (Tree.mem_activeForms_of_parameterVector? hv) hvector).1 hbound
    refine ⟨p, v, rfl, hvector, hpath, h.isBindingVector_iff.2 (.inl ⟨hd, hhead, ?_⟩), ?_⟩
    · rw [if_pos hslot, hv]
    · rw [hhead, Option.any_some, isAtValue, hpairs, Bool.false_and]

/-- The names of an arity are the symbols of its first form. -/
theorem isAtName_iff_of_arity {f first : Node} (h : c.SymbolIn cs path (n :: f :: outer))
    (hfirst : n.activeForms.head? = some first) (hvector : first.kind = .vector)
    (hlist : f.kind = .list) (hhead : (Tree.read cs).head? f = some hd)
    (hroot : hd.isScopeRoot = true) :
    c.IsAtName (Tree.read cs) path ⟨n, f :: outer⟩ ↔
      ∃ x ∈ (Tree.read cs).clausesAt ⟨n, f :: outer⟩,
        c.location.node ∈ (Tree.read cs).boundNames x.2.pattern := by
  have hslot : hd.parameterSlot?.isSome = true := by
    cases hd <;> first | rfl | cases hroot
  have hnone : (Tree.read cs).head? n = none := Tree.head?_eq_none hfirst hvector
  have hclauses : (Tree.read cs).clausesAt ⟨n, f :: outer⟩ = [(.parameter, .atEnd first)] := by
    simp [Tree.clausesAt, Tree.isInFunction, hfirst, hvector, hhead, hslot]
  have hmem := List.mem_of_mem_head? hfirst
  simp only [hclauses, List.mem_singleton, exists_eq_left]
  rw [Clause.atEnd, h.mem_boundNames_vector_iff hmem hvector]
  constructor
  · rintro ⟨p, v, rfl, -, hpath, hbinds, -⟩
    rcases h.isBindingVector_iff.1 hbinds with ⟨hd', hhead', -⟩ | ⟨hv, -⟩
    · rw [hnone] at hhead'
      cases hhead'
    · rw [hfirst, Option.some.injEq] at hv
      exact ⟨p, by rw [hv], hpath⟩
  · rintro ⟨p, rfl, hpath⟩
    refine ⟨p, first, rfl, hvector, hpath, h.isBindingVector_iff.2 (.inr ⟨hfirst, ?_⟩), ?_⟩
    · exact ⟨f, rfl, hlist, by rw [hhead]; exact hslot⟩
    · rw [hnone]
      rfl

/-- Where names and values alternate, the list binds the names in its binding vector. -/
theorem isAtName_iff_of_alternates (h : c.SymbolIn cs path (n :: outer))
    (hhead : (Tree.read cs).head? n = some hd) (halternates : hd.alternates = true) :
    c.IsAtName (Tree.read cs) path ⟨n, outer⟩ ↔
      ∃ v, n.bindingVector? = some v ∧
        (∃ p, path = p ++ [v] ∧ ∀ m ∈ path, m.kind.isPattern = true) ∧
        c.isAtValue hd v = false := by
  have hslot : ¬ hd.parameterSlot?.isSome = true := by
    cases hd <;> first | exact Bool.false_ne_true | cases halternates
  simp only [IsAtName, hhead, Option.any_some]
  constructor
  · rintro ⟨p, v, rfl, hvector, hpath, hbinds, hname⟩
    rcases h.isBindingVector_iff.1 hbinds with ⟨hd', hhead', hv⟩ | ⟨hfirst, -⟩
    · obtain rfl : hd = hd' := Option.some.inj (hhead.symm.trans hhead')
      rw [if_neg hslot] at hv
      exact ⟨v, hv.2, ⟨p, rfl, hpath⟩, hname⟩
    · rw [Tree.head?_eq_none hfirst hvector] at hhead
      cases hhead
  · rintro ⟨v, hv, ⟨p, rfl, hpath⟩, hname⟩
    have hvector : v.kind = .vector := by simpa using (Option.filter_eq_some_iff.1 hv).2
    refine ⟨p, v, rfl, hvector, hpath, h.isBindingVector_iff.2 (.inl ⟨hd, hhead, ?_⟩), hname⟩
    rw [if_neg hslot]
    exact ⟨halternates, hv⟩

/-- The names of names and values in turn are the symbols at even places. -/
theorem isAtName_iff_of_pairs (h : c.SymbolIn cs path (n :: outer))
    (hhead : (Tree.read cs).head? n = some hd) (hpairs : hd ∈ [.letIn, .loopIn, .bindingIn]) :
    c.IsAtName (Tree.read cs) path ⟨n, outer⟩ ↔
      ∃ x ∈ (Tree.read cs).clausesAt ⟨n, outer⟩,
        c.location.node ∈ (Tree.read cs).boundNames x.2.pattern := by
  obtain ⟨kind, hclauses⟩ : ∃ kind, (Tree.read cs).headClauses n hd =
      Tree.headClauses.vectorClauses n kind Clause.ofPairs := by
    simp only [List.mem_cons, List.not_mem_nil, or_false] at hpairs
    rcases hpairs with rfl | rfl | rfl <;> exact ⟨_, rfl⟩
  have halternates : hd.alternates = true := by
    cases hd <;> first | rfl | exact absurd hpairs (by decide)
  have hvalue : ∀ v, c.isAtValue hd v = (c.ordinal v % 2 == 1) := by
    intro v
    cases hd <;> first | rfl | exact absurd hpairs (by decide)
  rw [h.isAtName_iff_of_alternates hhead halternates, Tree.clausesAt_of_head? hhead, hclauses,
    Tree.headClauses.vectorClauses]
  cases hv : n.bindingVector? with
  | none => simp
  | some v =>
    have hvector : v.kind = .vector := by simpa using (Option.filter_eq_some_iff.1 hv).2
    have hbound := h.exists_mem_ofPairs_iff (Tree.mem_activeForms_of_bindingVector? hv) hvector
    simp only [Option.some.injEq, exists_eq_left', hvalue, beq_eq_false_iff_ne,
      Nat.mod_two_ne_one, ← hbound]
    constructor
    · rintro ⟨x, hx, hsymbol⟩
      exact ⟨(kind, x), List.mem_map_of_mem hx, hsymbol⟩
    · rintro ⟨_, hclause, hsymbol⟩
      obtain ⟨x, hx, rfl⟩ := List.mem_map.1 hclause
      exact ⟨x, hx, hsymbol⟩

end SymbolIn

/-- The list at a location is a function or one of its arities, which bind the names in
    their parameter vector, or it binds names and values in turn. -/
inductive NamesInTurn (t : Tree) : Location → Prop
  | function {n : Node} {outer : List Node} {hd : Head} (hhead : t.head? n = some hd)
      (hroot : hd.isScopeRoot = true) : NamesInTurn t ⟨n, outer⟩
  | pairs {n : Node} {outer : List Node} {hd : Head} (hhead : t.head? n = some hd)
      (hpairs : hd ∈ [.letIn, .loopIn, .bindingIn]) : NamesInTurn t ⟨n, outer⟩
  | arity {n f first : Node} {outer : List Node} {hd : Head}
      (hfirst : n.activeForms.head? = some first) (hvector : first.kind = .vector)
      (hlist : f.kind = .list) (hhead : t.head? f = some hd) (hroot : hd.isScopeRoot = true) :
      NamesInTurn t ⟨n, f :: outer⟩

/-- The symbol at a cursor in a source with the placeholder in it. -/
theorem exists_symbolIn_of_inSource {config : Config}
    (hconfig : config.placeholder = ({} : Config).placeholder) {cs : List Char} {offset : Nat}
    {t : Tree} {c : Cursor} (hcursor : inSource config cs offset = .ok (t, c))
    (hkind : c.location.node.kind = .symbol) (hactive : c.location.IsActive)
    {path outer : List Node} (habove : c.location.above = path ++ outer) :
    ∃ cs', t = Tree.read cs' ∧ c.SymbolIn cs' path outer := by
  have hp := Config.insertable_of_placeholder_eq hconfig
  obtain ⟨u, v, rfl, rfl, ht, hl, hoffset⟩ := exists_holds_of_inSource hp hcursor
  -- the sign for the rest of the arguments has no letter of the placeholder
  have hletter : 'I' ∈ t.chars c.location.node := by
    rcases hl.cases with hother | ⟨-, _, x, y, _, -, -, -, hchars, -⟩
    · rw [hkind] at hother
      exact absurd hother (by decide)
    · rw [hchars, hconfig]
      exact List.mem_append_right x (List.mem_append_left y (by decide))
  have htext : ∀ s : String, 'I' ∉ s.toList → t.text c.location.node ≠ s := by
    rintro s hs rfl
    exact hs (by rwa [Tree.text, String.toList_ofList])
  subst ht
  refine ⟨_, rfl, ⟨by simp [hp.ne_nil], hl.mem, hoffset ▸ hl.covers.1, ?_⟩, hkind, hactive,
    ⟨htext "&" (by decide), htext "..." (by decide)⟩, habove⟩
  rw [hoffset]
  exact Nat.le_trans (Nat.le_add_right ..) hl.covers.2

/-- In a list that binds the names of a parameter vector, or names and values in turn, the
    slot of a symbol is that of a name exactly if a clause of the list binds it. -/
theorem slot_parameterName_iff_bound {config : Config}
    (hconfig : config.placeholder = ({} : Config).placeholder) {cs : List Char} {offset : Nat}
    {t : Tree} {c : Cursor} (hcursor : inSource config cs offset = .ok (t, c))
    (hkind : c.location.node.kind = .symbol) (hactive : c.location.IsActive)
    {path outer : List Node} {n : Node} (habove : c.location.above = path ++ n :: outer)
    (hpath : ∀ m ∈ path, m.kind.isCall = false) (hlist : n.kind = .list)
    (hnames : NamesInTurn t ⟨n, outer⟩) (hdepth : path.length < config.maxTraversalDepth)
    (hlimit : ∀ m ∈ path, m.kind = .vector → byteLength (t.chars m) ≤ config.maxVectorText) :
    (∃ closed, t.slot config c = .parameterName closed) ↔
      ∃ x ∈ t.clausesAt ⟨n, outer⟩, c.location.node ∈ t.boundNames x.2.pattern := by
  obtain ⟨cs', rfl, h⟩ := exists_symbolIn_of_inSource hconfig hcursor hkind hactive habove
  rw [h.exists_parameterName_iff hdepth hlist hpath hlimit]
  cases hnames with
  | function hhead hroot => exact h.isAtName_iff_of_function hhead hroot
  | pairs hhead hpairs => exact h.isAtName_iff_of_pairs hhead hpairs
  | arity hfirst hvector hf hhead hroot =>
    exact h.isAtName_iff_of_arity hfirst hvector hf hhead hroot

/-- In the pattern of the second of two arities. -/
theorem slot_parameterName_iff_bound_arity :
    let cs := "(defn f ([x] x) ([y \x7b:k [z ]\x7d] z))".toList
    ∃ t c path n outer, inSource {} cs 27 = .ok (t, c) ∧ c.location.node.kind = .symbol ∧
      c.location.IsActive ∧ c.location.above = path ++ n :: outer ∧
      (∀ m ∈ path, m.kind.isCall = false) ∧ n.kind = .list ∧ NamesInTurn t ⟨n, outer⟩ ∧
      path.length < ({} : Config).maxTraversalDepth ∧
      (∀ m ∈ path, m.kind = .vector → byteLength (t.chars m) ≤ ({} : Config).maxVectorText) ∧
      t.slot {} c = .parameterName true ∧
      ∃ x ∈ t.clausesAt ⟨n, outer⟩, c.location.node ∈ t.boundNames x.2.pattern := by
  intro cs
  have hfacts : (inSource {} cs 27).toOption.any (fun x =>
      x.2.location.node.kind == .symbol && !x.2.location.isInDeactivated &&
      x.1.slot {} x.2 == .parameterName true &&
      (x.2.location.above.take 3).all (fun m => !m.kind.isCall &&
        decide (byteLength (x.1.chars m) ≤ ({} : Config).maxVectorText)) &&
      (x.2.location.above.drop 3).head?.any (fun n => n.kind == .list &&
        n.activeForms.head?.any (·.kind == .vector)) &&
      (x.2.location.above.drop 3).tail.head?.any fun f => f.kind == .list &&
        x.1.head? f == some .fnDef) = true := by
    decide +kernel
  obtain ⟨t, c, hcursor, hfacts⟩ := exists_of_any_inSource hfacts
  simp only [Bool.and_eq_true, Option.any_eq_true, beq_iff_eq, Bool.not_eq_true',
    List.all_eq_true, decide_eq_true_eq] at hfacts
  obtain ⟨⟨⟨⟨⟨hkind, hoff⟩, hslot⟩, hpath⟩, n, hn, hlist, first, hfirst, hvector⟩, f, hf, hflist,
    hhead⟩ := hfacts
  obtain ⟨rest, hrest⟩ := List.head?_eq_some_iff.1 hn
  rw [hrest, List.tail_cons] at hf
  obtain ⟨outer, rfl⟩ := List.head?_eq_some_iff.1 hf
  have habove : c.location.above = c.location.above.take 3 ++ n :: f :: outer := by
    rw [← hrest, List.take_append_drop]
  have hactive := Location.isInDeactivated_eq_false_iff.1 hoff
  have hcalls := fun m hm => (hpath m hm).1
  have hnames : NamesInTurn t ⟨n, f :: outer⟩ := .arity hfirst hvector hflist hhead rfl
  have hdepth : (c.location.above.take 3).length < ({} : Config).maxTraversalDepth :=
    Nat.lt_of_le_of_lt (List.length_take_le ..) (by decide)
  have hlimit := fun m hm (_ : m.kind = .vector) => (hpath m hm).2
  have hbound := (slot_parameterName_iff_bound rfl hcursor hkind hactive habove hcalls hlist
    hnames hdepth hlimit).1 ⟨true, hslot⟩
  exact ⟨t, c, _, n, f :: outer, hcursor, hkind, hactive, habove, hcalls, hlist, hnames, hdepth,
    hlimit, hslot, hbound⟩

end Cursor

end Typeahead
