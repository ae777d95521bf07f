import Typeahead.Cursor.Slot
import Typeahead.Proofs.Ordinals

/-!
# The slots of a call

At an active word inside a call, only the call decides about the slot, unless a
namespace declaration is around it: the rule of the parameter vector, that of the name
of a definition, and that of bodies and arguments, in this order. Whatever encloses the
call has no say. A function further outside would ask for its parameter vector only
where none of its forms stands, but the form with the cursor in it stands there
(`Cursor.StandsIn.exists_occupant`).

* `Cursor.StandsIn.parameterVectorSlot?_eq`: when the rule of the parameter vector applies;
* `Tree.calledName_eq_text`: the operator in front of the cursor is read as it is;
* `Cursor.slot_inSource_call`: the slots of a call.
-/

namespace Typeahead

/-! ### Words without the placeholder -/

theorem slice_infix (cs : List Char) (start stop : Nat) : slice cs start stop <:+: cs := by
  rw [slice]
  split
  · cases hcut : splitAtByte? start cs with
    | none => exact List.nil_infix
    | some x =>
      obtain ⟨a, rest⟩ := x
      obtain ⟨rfl, -⟩ := append_of_splitAtByte? hcut
      cases hcut' : splitAtByte? (stop - start) rest with
      | none => simp only [hcut', Option.map_none, Option.getD_none, List.nil_infix]
      | some y =>
        obtain ⟨b, post⟩ := y
        obtain ⟨rfl, -⟩ := append_of_splitAtByte? hcut'
        simp only [hcut', Option.map_some, Option.getD_some]
        exact ⟨a, post, List.append_assoc ..⟩
  · exact List.nil_infix

/-- A text with neither blanks nor the placeholder stays as it is. -/
theorem Config.stripPlaceholder_of_not_infix {config : Config} {cs : List Char}
    (h : ¬ config.placeholder.toList <:+: cs) (hblank : ∀ c ∈ cs, isBlank c = false) :
    config.stripPlaceholder cs = cs := by
  have hspace : ¬ config.placeholder.toList ++ [' '] <:+: cs := fun hoccurs =>
    h ((List.prefix_append _ _).isInfix.trans hoccurs)
  rw [stripPlaceholder, removeText_of_not_infix hspace, removeText_of_not_infix h,
    trim_of_not_blank hblank]

namespace Tree

variable {cs : List Char}

/-- A word has no character that ends words. -/
theorem isTerminator_of_mem_chars {n : Node} (hn : n ∈ (Tree.read cs).nodes)
    (hword : n.kind.isWord = true) : ∀ c ∈ (Tree.read cs).chars n, isTerminator c = false := by
  obtain ⟨leaf, hleaf, rfl⟩ := exists_leaf_of_isWord hn hword
  obtain ⟨before, l, after, hlex, htoken⟩ := (tokens_leaves_read cs).exists_lexeme hleaf
  have hshape := Shape.eq_atom_of_mem_kinds htoken.kind_mem (Kind.isForm_of_isWord hword)
  have hstands : StandsAt cs (0 + byteLength (before.flatMap (·.text))) l.text := by
    refine ⟨before.flatMap (·.text), after.flatMap (·.text), ?_, (Nat.zero_add _).symm⟩
    rw [← List.flatMap_cons, ← List.flatMap_append, ← hlex, flatMap_text_lex]
  rw [chars, source_read, htoken.span_eq, hstands.slice_eq]
  exact ((endsBefore_of_lex hlex).isTerminator_endsWord hshape hword).1

/-- The nodes around a token, the root apart, can hold others. -/
theorem isNested_of_mem_above {l : Location} (hl : l ∈ (Tree.read cs).locations)
    (hnil : l.node.children = []) {m : Node} (hm : m ∈ l.above.dropLast) :
    m.kind.isNested = true := by
  rcases mem_leaves_of_mem_locations hl hnil with rfl | hleaf
  · exact absurd hm List.not_mem_nil
  · obtain ⟨_, _, _, -, htoken⟩ := (tokens_leaves_read cs).exists_lexeme hleaf
    have hheading : m.heading ∈ l.trail.dropLast := by
      rw [Location.trail, ← List.map_dropLast]
      exact List.mem_map_of_mem hm
    exact htoken.nested _ hheading

/-- The first active form ends before the others start. -/
theorem stop_head_le (hcs : cs ≠ []) {l : Location} (hl : l ∈ (Tree.read cs).locations)
    {head m : Node} (hhead : l.node.activeForms.head? = some head) {i : Nat} (hpos : 0 < i)
    (hi : l.node.activeForms[i]? = some m) : head.span.stop ≤ m.span.start := by
  rw [List.head?_eq_getElem?] at hhead
  obtain ⟨hlt, rfl⟩ := List.getElem?_eq_some_iff.1 hhead
  obtain ⟨hlt', rfl⟩ := List.getElem?_eq_some_iff.1 hi
  exact List.pairwise_iff_getElem.1 (pairwise_activeForms hcs hl) 0 i hlt hlt' hpos

/-- A call in front of the cursor has the name that stands in the text. -/
theorem calledName_eq_text {config : Config} {u v : List Char}
    (hu : ¬ config.placeholder.toList <:+: u) {n : Node} (hn : n ∈ (Tree.read (u ++ v)).nodes)
    (hword : n.kind.isWord = true) (hstop : n.span.stop ≤ byteLength u) :
    (Tree.read (u ++ v)).calledName config n = (Tree.read (u ++ v)).text n := by
  have hchars : (Tree.read (u ++ v)).chars n <:+: u := by
    rw [chars, source_read, slice_append_left _ hstop]
    exact slice_infix ..
  have hblank : ∀ c ∈ (Tree.read (u ++ v)).chars n, isBlank c = false := by
    intro c hc
    have hterm := isTerminator_of_mem_chars hn hword c hc
    rw [Bool.eq_false_iff] at hterm ⊢
    exact fun h => hterm (isTerminator_of_isBlank h)
  rw [calledName, text, Config.stripPlaceholder_of_not_infix (fun h => hu (h.trans hchars)) hblank]

end Tree

/-- The node that leads to a location from the node around its `path`. -/
theorem Location.lead_mem (l : Location) {path outer : List Node}
    (habove : l.above = path ++ outer) :
    ⟨path.getLastD l.node, outer⟩ ∈ l.selfAndAncestors := by
  rcases List.eq_nil_or_concat path with rfl | ⟨p, m, rfl⟩
  · obtain ⟨n, above⟩ := l
    rw [show above = outer from habove]
    exact List.mem_cons_self
  · rw [List.concat_eq_append] at habove ⊢
    rw [List.getLastD_concat]
    refine List.mem_cons_of_mem _ ?_
    rw [ancestors, habove, List.append_assoc]
    exact mem_chain_append m p outer

theorem Kind.isForm_of_isNested {k : Kind} (h : k.isNested = true) : k.isForm = true := by
  revert h
  cases k <;> decide

namespace Cursor

/-- A cursor with a placeholder is in the token that holds the placeholder. -/
theorem exists_ofLocation_of_inSource {config : Config} (hp : config.Insertable) {cs : List Char}
    {offset : Nat} {t : Tree} {c : Cursor} (h : inSource config cs offset = .ok (t, c)) :
    ∃ u v l, cs = u ++ v ∧ offset = byteLength u ∧
      t = Tree.read (u ++ (config.placeholder.toList ++ v)) ∧
      t.Holds u config.placeholder.toList v l ∧ c = ofLocation t config l (byteLength u) := by
  cases hsplit : splitAtByte? offset cs with
  | none =>
    rw [inSource, insertAt, hsplit] at h
    cases h
  | some x =>
    obtain ⟨u, v⟩ := x
    obtain ⟨rfl, rfl⟩ := append_of_splitAtByte? hsplit
    obtain ⟨l, hl⟩ := Tree.exists_holds_read hp.ordinary hp.ne_nil u v
    rw [inSource_eq_ok hl] at h
    cases h
    exact ⟨u, v, l, rfl, rfl, rfl, hl, rfl⟩

theorem exists_holds_of_inSource {config : Config} (hp : config.Insertable) {cs : List Char}
    {offset : Nat} {t : Tree} {c : Cursor} (h : inSource config cs offset = .ok (t, c)) :
    ∃ u v, cs = u ++ v ∧ offset = byteLength u ∧
      t = Tree.read (u ++ (config.placeholder.toList ++ v)) ∧
      t.Holds u config.placeholder.toList v c.location ∧ c.offset = byteLength u := by
  obtain ⟨u, v, l, hcs, hoffset, ht, hl, rfl⟩ := exists_ofLocation_of_inSource hp h
  exact ⟨u, v, hcs, hoffset, ht, hl, rfl⟩

/-- A test that a cursor passes finds the cursor. -/
theorem exists_of_any_inSource {config : Config} {cs : List Char} {offset : Nat}
    {test : Tree × Cursor → Bool} (h : (inSource config cs offset).toOption.any test = true) :
    ∃ t c, inSource config cs offset = .ok (t, c) ∧ test (t, c) = true := by
  cases hcursor : inSource config cs offset with
  | error e =>
    rw [hcursor] at h
    cases h
  | ok x =>
    rw [hcursor] at h
    exact ⟨x.1, x.2, rfl, h⟩

/-! ### The calls around a cursor -/

section Calls

variable {c : Cursor} {n : Node} {above : List Node}

/-- The nearest call around a word directly in it. -/
theorem exists_around_eq (hword : c.location.node.kind.isWord = true)
    (habove : c.location.above = n :: above) {depth : Nat} (hdepth : 0 < depth) :
    ∃ ls, c.around depth = ⟨n, above⟩ :: ls ∧ ∀ l ∈ ls, l.node ∈ above := by
  have hkind : (c.location.node.kind.isCollection || c.location.node.kind == .root) = false := by
    revert hword
    cases c.location.node.kind <;> decide
  obtain ⟨k, rfl⟩ := Nat.exists_eq_succ_of_ne_zero (Nat.ne_of_gt hdepth)
  refine ⟨(Location.chain above).take k, ?_, fun l hl => ?_⟩
  · simp only [around, hkind, Location.ancestors, habove, Location.chain]
    rfl
  · obtain ⟨as, happ⟩ := Location.exists_of_mem_chain (List.take_subset _ _ hl)
    simp [happ]

theorem exists_calls_eq (hword : c.location.node.kind.isWord = true)
    (habove : c.location.above = n :: above) (hcall : n.kind.isCall = true) {depth : Nat}
    (hdepth : 0 < depth) : ∃ ms, c.calls depth = n :: ms ∧ ms ⊆ above := by
  obtain ⟨ls, haround, hls⟩ := exists_around_eq hword habove hdepth
  refine ⟨(ls.map (·.node)).filter (·.kind.isCall), ?_, fun m hm => ?_⟩
  · rw [calls, haround, List.map_cons, List.filter_cons_of_pos (by simp [hcall])]
  · obtain ⟨l, hl, rfl⟩ := List.mem_map.1 (List.mem_filter.1 hm).1
    exact hls l hl

/-- The calls around what is no call itself are nodes above it. -/
theorem mem_above_of_mem_calls (hself : c.location.node.kind.isCall = false) {depth : Nat}
    (hn : n ∈ c.calls depth) : n ∈ c.location.above ∧ n.kind.isCall = true := by
  obtain ⟨hmem, hcall⟩ := List.mem_filter.1 hn
  obtain ⟨l, hl, rfl⟩ := List.mem_map.1 hmem
  have hchain : l ∈ c.location.selfAndAncestors := by
    rw [around] at hl
    have hl := List.take_subset _ _ hl
    split at hl
    · exact hl
    · exact List.mem_cons_of_mem _ hl
  rcases List.mem_cons.1 hchain with rfl | hl
  · rw [hself] at hcall
    cases hcall
  · obtain ⟨as, has⟩ := Location.exists_of_mem_chain hl
    exact ⟨by simp [has], hcall⟩

end Calls

namespace StandsIn

variable {c : Cursor} {cs : List Char}

/-- The form that leads to an active cursor from a node around it stands there at the
    ordinal of the cursor. -/
theorem getElem?_ordinal (h : c.StandsIn cs) (hword : c.location.node.kind.isWord = true)
    (hactive : c.location.IsActive) {path outer : List Node} {m : Node}
    (habove : c.location.above = path ++ m :: outer) :
    m.activeForms[c.ordinal m]? = some (path.getLastD c.location.node) := by
  have hlead := c.location.lead_mem habove
  have hmem := Tree.selfAndAncestors_subset_locations h.mem hlead
  have hnil := Tree.children_eq_of_isWord (Tree.mem_nodes_of_mem_locations h.mem) hword
  have hform : (path.getLastD c.location.node).kind.isForm = true := by
    rcases List.eq_nil_or_concat path with rfl | ⟨p, q, rfl⟩
    · exact Kind.isForm_of_isWord hword
    · rw [List.concat_eq_append] at habove ⊢
      rw [List.getLastD_concat]
      refine Kind.isForm_of_isNested (Tree.isNested_of_mem_above h.mem hnil ?_)
      rw [habove, List.dropLast_append_cons]
      simp
  have hself := Location.activeSelf_of_isActive hform (hactive _ hlead hform)
  obtain ⟨later, hforms, -⟩ := Tree.exists_activeForms_eq h.ne_nil hmem rfl
  rw [h.ordinal_eq hlead rfl, hforms, hself, List.getElem?_append_right (Nat.le_refl _),
    Nat.sub_self]
  rfl

/-- The form that stands where an active cursor is in a node around it: the cursor's own
    node in the node directly around it, and another one further outside. -/
theorem exists_occupant (h : c.StandsIn cs) (hword : c.location.node.kind.isWord = true)
    (hactive : c.location.IsActive) {path outer : List Node} {m : Node}
    (habove : c.location.above = path ++ m :: outer) :
    ∃ child, m.activeForms[c.ordinal m]? = some child ∧
      (child.id = c.location.node.id ↔ path = []) := by
  refine ⟨_, h.getElem?_ordinal hword hactive habove, fun hid => ?_, fun hpath => ?_⟩
  · have hmem := Tree.selfAndAncestors_subset_locations h.mem (c.location.lead_mem habove)
    have heq := congrArg Location.above (Tree.location_eq_of_id_eq hmem h.mem hid)
    rw [habove] at heq
    exact List.self_eq_append_left.1 heq
  · rw [hpath]
    rfl

/-- The form that leads to an active cursor has one index in a node around it, the ordinal
    of the cursor. -/
theorem eq_ordinal_of_getElem? (h : c.StandsIn cs) (hword : c.location.node.kind.isWord = true)
    (hactive : c.location.IsActive) {path outer : List Node} {m : Node} {i : Nat}
    (habove : c.location.above = path ++ m :: outer)
    (hi : m.activeForms[i]? = some (path.getLastD c.location.node)) : c.ordinal m = i := by
  have hget := h.getElem?_ordinal hword hactive habove
  have hm : m ∈ (Tree.read cs).nodes := Tree.mem_nodes_of_mem_above h.mem (by simp [habove])
  have hnodup := (Tree.nodup_children h.ne_nil hm).sublist m.activeForms_sublist_children
  have hlt : c.ordinal m < m.activeForms.length := (List.getElem?_eq_some_iff.1 hget).1
  exact (List.getElem?_inj hlt hnodup).1 (hget.trans hi.symm)

/-- The ordinal of an active cursor in the node directly around it is the index of its
    own node there. -/
theorem ordinal_eq_of_getElem? (h : c.StandsIn cs) (hword : c.location.node.kind.isWord = true)
    (hactive : c.location.IsActive) {above : List Node} {n : Node} {i : Nat}
    (habove : c.location.above = n :: above)
    (hi : n.activeForms[i]? = some c.location.node) : c.ordinal n = i := by
  have happ : c.location.above = [] ++ n :: above := habove
  exact h.eq_ordinal_of_getElem? hword hactive happ hi

/-- At the ordinal of the cursor in a node further outside stands the form with the cursor
    in it, which is not the cursor's own node. -/
theorem all_getElem?_eq_false (h : c.StandsIn cs) (hword : c.location.node.kind.isWord = true)
    (hactive : c.location.IsActive) {above : List Node} {n m : Node}
    (habove : c.location.above = n :: above) (hm : m ∈ above) {slot : Nat}
    (hslot : c.ordinal m = slot) :
    m.activeForms[slot]?.all (·.id == c.location.node.id) = false := by
  obtain ⟨as, bs, happ⟩ := List.append_of_mem hm
  have happ' : c.location.above = (n :: as) ++ m :: bs := by rw [habove, happ]; rfl
  obtain ⟨child, hchild, hid⟩ := h.exists_occupant hword hactive happ'
  have hne : ¬ child.id = c.location.node.id := fun heq => absurd (hid.1 heq) (by simp)
  rw [← hslot, hchild, Option.all_some, beq_eq_false_iff_ne.2 hne]

/-- In the parameter slot of a function further outside, if the cursor is there, stands the form
    with the cursor in it. -/
theorem all_parameterSlot_eq_false (h : c.StandsIn cs) (hword : c.location.node.kind.isWord = true)
    (hactive : c.location.IsActive) {t : Tree} {above ms : List Node} {n : Node}
    (habove : c.location.above = n :: above) (hms : ms ⊆ above) {m : Node} {slot : Nat}
    (hfind : ms.findSome? (fun m => ((t.head? m).bind (·.parameterSlot?)).map (m, ·)) =
      some (m, slot)) :
    c.ordinal m = slot → m.activeForms[slot]?.all (·.id == c.location.node.id) = false := by
  obtain ⟨k, hk, hmap⟩ := List.exists_of_findSome?_eq_some hfind
  obtain ⟨_, -, hpair⟩ := Option.map_eq_some_iff.1 hmap
  obtain rfl : k = m := congrArg Prod.fst hpair
  exact h.all_getElem?_eq_false hword hactive habove (hms hk)

/-- The rule of the parameter vector applies at the parameter slot of the call that the
    word is directly in, and nowhere else. -/
theorem parameterVectorSlot?_eq (h : c.StandsIn cs) {t : Tree} {config : Config}
    (hdepth : 0 < config.maxTraversalDepth) (hword : c.location.node.kind.isWord = true)
    (hactive : c.location.IsActive) {above : List Node} {n : Node} {i : Nat}
    (habove : c.location.above = n :: above) (hcall : n.kind.isCall = true)
    (hi : n.activeForms[i]? = some c.location.node) :
    t.parameterVectorSlot? config c =
      if (t.head? n).bind (·.parameterSlot?) = some i then some .parameterVector else none := by
  obtain ⟨ms, hcalls, hms⟩ := exists_calls_eq hword habove hcall hdepth
  have hordinal := h.ordinal_eq_of_getElem? hword hactive habove hi
  rw [Tree.parameterVectorSlot?, Tree.functionAround?, hcalls, List.findSome?_cons]
  cases hslot : (t.head? n).bind (·.parameterSlot?) with
  | some slot =>
    by_cases hsame : slot = i
    · subst hsame
      simp [hordinal, hi]
    · have hne : ¬ some slot = some i := fun heq => hsame (Option.some.inj heq)
      have hne' : ¬ i = slot := fun heq => hsame heq.symm
      simp [hordinal, hne, hne']
  | none =>
    cases hfind : ms.findSome? fun m => ((t.head? m).bind (·.parameterSlot?)).map (m, ·) with
    | none => simp
    | some x =>
      obtain ⟨m, slot⟩ := x
      simpa using h.all_parameterSlot_eq_false hword hactive habove hms hfind

/-- The rule of the parameter vector does not apply to a word that is not directly in a
    call. -/
theorem parameterVectorSlot?_eq_none (h : c.StandsIn cs) {t : Tree} {config : Config}
    (hdepth : 0 < config.maxTraversalDepth) (hword : c.location.node.kind.isWord = true)
    (hactive : c.location.IsActive) {above : List Node} {n : Node}
    (habove : c.location.above = n :: above) (hcall : n.kind.isCall = false) :
    t.parameterVectorSlot? config c = none := by
  obtain ⟨ls, haround, hls⟩ := exists_around_eq hword habove hdepth
  have hcalls : c.calls config.maxTraversalDepth ⊆ above := by
    intro m hm
    rw [calls, haround, List.map_cons, List.filter_cons_of_neg (by simp [hcall])] at hm
    obtain ⟨l, hl, rfl⟩ := List.mem_map.1 (List.mem_filter.1 hm).1
    exact hls l hl
  rw [Tree.parameterVectorSlot?]
  cases hfind : t.functionAround? config c with
  | none => rfl
  | some x =>
    obtain ⟨m, slot⟩ := x
    simpa using h.all_parameterSlot_eq_false hword hactive habove hcalls hfind

end StandsIn

/-! ### The other rules -/

section Rules

variable {t : Tree} {config : Config} {c : Cursor} {n : Node} {above ms : List Node} {i : Nat}

theorem bindingSlot?_eq_none (hdepth : 0 < config.maxTraversalDepth)
    (hword : c.location.node.kind.isWord = true) (habove : c.location.above = n :: above)
    (hcall : n.kind.isCall = true) : t.bindingSlot? config c = none := by
  obtain ⟨ls, haround, -⟩ := exists_around_eq hword habove hdepth
  have hkind : (n.kind == .vector || n.kind == .map) = false := by
    revert hcall
    cases n.kind <;> decide
  rw [Tree.bindingSlot?, haround, List.takeWhile_cons_of_neg (by simp [hkind])]
  rfl

theorem definitionSlot?_eq (hcalls : c.calls config.maxTraversalDepth = n :: ms)
    (hordinal : c.ordinal n = i) : t.definitionSlot? config c =
      if (t.head? n).any (·.isDefinition) ∧ i = 1 then some .definitionName else none := by
  rw [Tree.definitionSlot?, hcalls]
  simp [hordinal]

theorem namespaceSlot?_eq_none
    (hns : ∀ m ∈ c.calls config.maxTraversalDepth, t.head? m ≠ some .ns) :
    t.namespaceSlot? config c = none := by
  have hfind : t.namespaceAround? config c = none := by
    rw [Tree.namespaceAround?, List.find?_eq_none]
    exact fun m hm hhead => hns m hm (beq_iff_eq.1 hhead)
  rw [Tree.namespaceSlot?, hfind]
  rfl

/-- The call directly around a word has a say, if its operator is a symbol. -/
theorem callSlot?_eq (hordinal : c.ordinal n = i + 1) {head : Node}
    (hhead : n.activeForms.head? = some head) (hsymbol : head.kind = .symbol)
    (hname : t.calledName config head = t.text head) :
    t.callSlot? config c (n :: ms) =
      some (if ((t.head? n).bind (·.bodyOffset?)).any (· ≤ i + 1) then .expression
        else .argument (t.text head) i) := by
  have hhead? : t.head? n = Head.ofName? (t.text head) := by
    rw [Tree.head?, hhead]
    exact if_pos hsymbol
  rw [Tree.callSlot?]
  simp only [hordinal, hhead, hsymbol, hname, hhead?]
  split <;> rfl

end Rules

/-- The slots of a call: at an active symbol or number directly in a call, as the form
    with the index `i` after a symbol as operator and in no namespace declaration, the slot
    is that of the parameter vector, if the operator has it there, else the name of a
    definition, if the operator defines one and the form is the first after it, else an
    expression, if the body has begun, and else an argument. -/
theorem slot_inSource_call {config : Config}
    (hconfig : config.placeholder = ({} : Config).placeholder)
    (hdepth : 0 < config.maxTraversalDepth) {cs : List Char}
    (hcs : config.containsPlaceholder cs = false) {offset : Nat} {t : Tree} {c : Cursor}
    (hcursor : inSource config cs offset = .ok (t, c))
    (hkind : c.location.node.kind = .symbol ∨ c.location.node.kind = .number)
    {n head : Node} {above : List Node} (habove : c.location.above = n :: above)
    (hcall : n.kind.isCall = true) (hhead : n.activeForms.head? = some head)
    (hsymbol : head.kind = .symbol) {i : Nat} (hpos : 1 ≤ i)
    (hi : n.activeForms[i]? = some c.location.node) (hactive : c.location.IsActive)
    (hns : ∀ m ∈ c.calls config.maxTraversalDepth, t.head? m ≠ some .ns) :
    t.slot config c =
      if (t.head? n).bind (·.parameterSlot?) = some i then .parameterVector
      else if (t.head? n).any (·.isDefinition) ∧ i = 1 then .definitionName
      else if ((t.head? n).bind (·.bodyOffset?)).any (· ≤ i) then .expression
      else .argument (t.text head) (i - 1) := by
  have hp := Config.insertable_of_placeholder_eq hconfig
  obtain ⟨u, v, rfl, rfl, ht, hl, hoffset⟩ := exists_holds_of_inSource hp hcursor
  obtain ⟨k, rfl⟩ := Nat.exists_eq_succ_of_ne_zero (Nat.ne_of_gt hpos)
  have hword : c.location.node.kind.isWord = true := by
    rcases hkind with h | h <;> rw [h] <;> rfl
  have hstands : c.StandsIn (u ++ (config.placeholder.toList ++ v)) := by
    refine ⟨by simp [hp.ne_nil], ht ▸ hl.mem, hoffset ▸ hl.covers.1, ?_⟩
    rw [hoffset]
    exact Nat.le_trans (Nat.le_add_right ..) hl.covers.2
  have hordinal := hstands.ordinal_eq_of_getElem? hword hactive habove hi
  obtain ⟨ms, hcalls, -⟩ := exists_calls_eq hword habove hcall hdepth
  -- the operator ends before the cursor
  have hname : t.calledName config head = t.text head := by
    have hu : ¬ config.placeholder.toList <:+: u := by
      intro hoccurs
      have hcontains := containsText_iff.2 (hoccurs.trans (List.prefix_append u v).isInfix)
      rw [Config.containsPlaceholder, hcontains] at hcs
      cases hcs
    have hn := (Tree.parent_mem_locations hstands.mem habove).1
    have hmem := Tree.mem_nodes_of_mem_children (Tree.mem_nodes_of_mem_locations hn)
      (n.activeForms_subset_children (List.mem_of_mem_head? hhead))
    rw [ht]
    refine Tree.calledName_eq_text hu hmem (by rw [hsymbol]; rfl) (Nat.le_trans ?_ hl.covers.1)
    exact Tree.stop_head_le hstands.ne_nil hn hhead hpos hi
  have hkeyword : c.keywordSlot? = none := by
    refine if_neg fun hkeyword => ?_
    rw [hkeyword] at hkind
    rcases hkind with h | h <;> cases h
  have hform : c.newFormSlot? config.maxTraversalDepth = none := by
    rw [newFormSlot?, hcalls]
    rfl
  rw [Tree.slot, hkeyword, hform,
    hstands.parameterVectorSlot?_eq hdepth hword hactive habove hcall hi,
    bindingSlot?_eq_none hdepth hword habove hcall, definitionSlot?_eq hcalls hordinal,
    namespaceSlot?_eq_none hns, hcalls, callSlot?_eq hordinal hhead hsymbol hname]
  by_cases hparameter : (t.head? n).bind (·.parameterSlot?) = some (k + 1)
  · rw [if_pos hparameter, if_pos hparameter]
    rfl
  rw [if_neg hparameter, if_neg hparameter]
  by_cases hdefines : (t.head? n).any (·.isDefinition) ∧ k + 1 = 1
  · rw [if_pos hdefines, if_pos hdefines]
    rfl
  · rw [if_neg hdefines, if_neg hdefines]
    rfl

/-- In a body, after a form that a marker deactivates. -/
theorem slot_inSource_call_nested :
    let cs := "(defn f [x] (let [y 1] (g #_ a b )))".toList
    ({} : Config).containsPlaceholder cs = false ∧
    ∃ t c n head above, inSource {} cs 33 = .ok (t, c) ∧ c.location.node.kind = .symbol ∧
      c.location.above = n :: above ∧ n.kind.isCall = true ∧ n.activeForms.head? = some head ∧
      head.kind = .symbol ∧ t.text head = "g" ∧
      n.activeForms[2]? = some c.location.node ∧ c.location.IsActive ∧
      t.slot {} c = .argument "g" 1 := by
  intro cs
  have hcs : ({} : Config).containsPlaceholder cs = false := by decide +kernel
  have hfacts : (inSource {} cs 33).toOption.any (fun x =>
      x.2.location.node.kind == .symbol && !x.2.location.isInDeactivated &&
      (x.2.calls 20).all (fun m => x.1.head? m != some .ns) &&
      x.2.location.above.head?.any fun n => n.kind.isCall && x.1.head? n == none &&
        n.activeForms.head?.any (fun h => h.kind == .symbol && x.1.text h == "g") &&
        n.activeForms[2]?.any (·.id == x.2.location.node.id)) = true := by
    decide +kernel
  cases hcursor : inSource {} cs 33 with
  | error e =>
    rw [hcursor] at hfacts
    cases hfacts
  | ok x =>
    obtain ⟨t, c⟩ := x
    rw [hcursor, Except.toOption, Option.any_some] at hfacts
    simp only [Bool.and_eq_true, Option.any_eq_true, beq_iff_eq, Bool.not_eq_true',
      List.all_eq_true, bne_iff_ne] at hfacts
    obtain ⟨⟨⟨hkind, hoff⟩, hns⟩, n, hn, ⟨⟨hcall, hhead?⟩, head, hhead, hsymbol, htext⟩, m, hm,
      hid⟩ := hfacts
    obtain ⟨above, habove⟩ := List.head?_eq_some_iff.1 hn
    -- the form with the number of the cursor's node is that node
    obtain rfl : m = c.location.node := by
      have hp : ({} : Config).Insertable := Config.insertable_of_placeholder_eq rfl
      obtain ⟨u, v, -, -, ht, hl, -⟩ := exists_holds_of_inSource hp hcursor
      have hmem := ht ▸ hl.mem
      have hnode := Tree.mem_nodes_of_mem_locations (Tree.parent_mem_locations hmem habove).1
      exact Tree.eq_of_id_eq (Tree.mem_nodes_of_mem_children hnode
        (n.activeForms_subset_children (List.mem_of_getElem? hm)))
        (Tree.mem_nodes_of_mem_locations hmem) hid
    have hactive := Location.isInDeactivated_eq_false_iff.1 hoff
    have hslot := slot_inSource_call rfl (by decide) hcs hcursor (.inl hkind) habove hcall hhead
      hsymbol (by decide) hm hactive hns
    rw [hhead?, htext] at hslot
    exact ⟨hcs, t, c, n, head, above, rfl, hkind, habove, hcall, hhead, hsymbol, htext, hm,
      hactive, hslot⟩

end Cursor

end Typeahead
