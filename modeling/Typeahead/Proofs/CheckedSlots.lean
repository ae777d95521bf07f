import Typeahead.Cursor.Slot
import Typeahead.Proofs.CheckedForms

/-!
# Checked slots

The rules for the slot of a cursor, with nodes looked up by their numbers. Two of them
take the form before the one with a given ordinal, which must not be the first; two look
at a part of the text of a namespace declaration.

* `ordinal_eq`: the ordinal of the cursor among the forms of a list is found;
* `slot_eq`, `contextOf_eq`: so is the slot of the cursor, and what else is known about it.
-/

namespace Typeahead.Checked

variable (t : Tree) (config : Config) (c : Cursor)

/-! ### Calls around the cursor -/

/-- The nodes around the cursor, innermost first, its own node being one if other nodes
    can be in it. -/
def around (maxDepth : Nat) : Option (List Node) := do
  let n := c.location.node
  let above ← ancestors t n
  let chain := if n.kind.isCollection || n.kind == .root then n :: above else above
  return chain.take maxDepth

/-- The calls around the cursor, innermost first. -/
def calls (maxDepth : Nat) : Option (List Node) := do
  return (← around t c maxDepth).filter (·.kind.isCall)

/-- The calls around the cursor, each with its head. -/
def headedCalls : Option (List (Node × Option Head)) := do
  (← calls t c config.maxTraversalDepth).mapM (withHead t)

/-- The slot of the cursor among the active forms of a node. -/
def ordinal (n : Node) : Option Nat := do
  let forms ← activeForms t n
  let isAround ← forms.mapM (isWithin t c.location.node)
  return (isAround.findIdx? id).getD (forms.countP (·.span.stop ≤ c.offset))

section Calls

variable {t c} (ht : t.InOrder) (hc : c.location ∈ t.locations)
include ht hc

theorem around_eq (maxDepth : Nat) :
    around t c maxDepth = some ((c.around maxDepth).map (·.node)) := by
  have hchain := Location.map_node_chain c.location.above
  simp only [around, ancestors_eq ht hc, Option.bind_eq_bind, Option.bind_some, Cursor.around,
    List.map_take]
  split
  · rw [Location.selfAndAncestors, List.map_cons, Location.ancestors, hchain]
    rfl
  · rw [Location.ancestors, hchain]
    rfl

theorem calls_eq (maxDepth : Nat) : calls t c maxDepth = some (c.calls maxDepth) := by
  rw [calls, around_eq ht hc]
  rfl

omit ht in
theorem around_subset_locations (maxDepth : Nat) : ∀ l ∈ c.around maxDepth, l ∈ t.locations := by
  intro l hl
  have hmem := List.mem_of_mem_take hl
  refine Tree.selfAndAncestors_subset_locations hc ?_
  split at hmem
  · exact hmem
  · exact List.mem_cons_of_mem _ hmem

omit ht in
theorem calls_subset_nodes (maxDepth : Nat) : ∀ n ∈ c.calls maxDepth, n ∈ t.nodes := by
  intro n hn
  obtain ⟨l, hl, rfl⟩ := List.mem_map.1 (List.mem_filter.1 hn).1
  exact Tree.mem_nodes_of_mem_locations (around_subset_locations hc maxDepth l hl)

theorem headedCalls_eq :
    headedCalls t config c =
      some ((c.calls config.maxTraversalDepth).map fun n => (n, t.head? n)) := by
  rw [headedCalls, calls_eq ht hc]
  exact mapM_withHead_eq ht (calls_subset_nodes hc config.maxTraversalDepth)

theorem ordinal_eq {n : Node} (hn : n ∈ t.nodes) : ordinal t c n = some (c.ordinal n) := by
  have hinside : n.activeForms.mapM (isWithin t c.location.node) =
      some (n.activeForms.map (c.location.isWithin ·)) :=
    mapM_eq_some fun m _ => isWithin_eq ht hc m
  have hfind : (n.activeForms.map (c.location.isWithin ·)).findIdx? id =
      n.activeForms.findIdx? (c.location.isWithin ·) := List.findIdx?_map
  simp only [ordinal, activeForms_eq ht hn, hinside, Option.bind_eq_bind, Option.bind_some, hfind,
    Cursor.ordinal, Cursor.ordinalAmong]
  cases n.activeForms.findIdx? (c.location.isWithin ·) <;> rfl

end Calls

/-! ### Rules -/

/-- The nearest call around the cursor that is a namespace declaration. -/
def namespaceAround : Option (Option Node) := do
  return ((← headedCalls t config c).find? (·.2 == some .ns)).map Prod.fst

/-- The nearest call around the cursor that takes parameters, and the slot of its
    parameter vector. -/
def functionAround : Option (Option (Node × Nat)) := do
  return (← headedCalls t config c).findSome? fun x => (x.2.bind (·.parameterSlot?)).map (x.1, ·)

/-- The slot of a parameter vector that is not there yet. -/
def parameterVectorSlot : Option (Option Slot) := do
  match ← functionAround t config c with
  | none => return none
  | some (n, slot) =>
    let isVacant := (← activeForms t n)[slot]?.all (·.id == c.location.node.id)
    return if (← ordinal t c n) = slot && isVacant then some .parameterVector else none

/-- Whether the cursor is at a value of the binding vector `v` of a list with the head `h`. -/
def isAtValue (h : Head) (v : Node) : Option Bool := do
  let slot ← ordinal t c v
  let forms ← activeForms t v
  if !h.alternates then return false
  else if h = .forIn then
    if 0 < slot then return forms[← sub slot 1]?.any (·.kind == .keyword) else return false
  else return slot % 2 == 1

/-- Whether the cursor is at a value of the binding vector `v` of a list. -/
def isAtValueOf (list v : Node) : Option Bool := do
  match ← head t list with
  | none => return false
  | some h => isAtValue t c h v

/-- The vector where a list binds names by its head. -/
def ownVector (list : Node) : Option (Option Node) := do
  let params ← parameterVector t list
  let bindings ← bindingVector t list
  match ← head t list with
  | none => return none
  | some h =>
    return if h.parameterSlot?.isSome then params else if h.alternates then bindings else none

/-- Whether the parent of a node is a list that takes parameters. -/
def isInFunctionList (n : Node) : Option Bool := do
  match ← parent t n with
  | none => return false
  | some p => return p.kind == .list && (← takesParameters t p)

/-- Whether `v`, a child of a list, is where the list binds names. -/
def isBindingVector (list v : Node) : Option Bool := do
  let isOwn := (← ownVector t list).any (·.id == v.id)
  let isArity := (← activeForms t list).head?.any (·.id == v.id) && (← isInFunctionList t list)
  return isOwn || isArity

/-- The slot inside a binding vector, however deep in the patterns there. -/
def bindingSlot : Option (Option Slot) := do
  let patterns := (← around t c config.maxTraversalDepth).takeWhile fun n =>
    n.kind == .vector || n.kind == .map
  match patterns.getLast? with
  | none => return none
  | some v =>
    match ← parent t v with
    | none => return none
    | some list =>
      let innermost := (patterns.find? (·.kind == .vector)).getD v
      let isBinding ← isBindingVector t list v
      let isValue ← isAtValueOf t c list v
      let closed ← isClosed t innermost
      return if v.kind ≠ .vector || list.kind ≠ .list ||
          config.maxVectorText < byteLength (t.chars v) || !isBinding then none
        else if isValue then some .expression
        else some (.parameterName closed)

/-- The slot of the name of a definition. -/
def definitionSlot : Option (Option Slot) := do
  match (← calls t c config.maxTraversalDepth).head? with
  | none => return none
  | some n =>
    let isDefinition := (← head t n).any (·.isDefinition)
    return if isDefinition && (← ordinal t c n) == 1 then some .definitionName else none

/-- The slot inside a namespace declaration. -/
def namespaceSlot : Option (Option Slot) := do
  match ← namespaceAround t config c with
  | none => return none
  | some ns =>
    let slot ← ordinal t c ns
    let clause ← clauseAt (← window t ns c.offset config.namespaceWindow)
    return if slot = 0 then none else if slot = 1 then some (.inNamespace .name)
      else some (.inNamespace clause)

/-- The slot that a call with the given first form gives to a cursor with the given
    ordinal there. -/
def slotInCall (slot : Nat) : Option Node → Option (Option Slot)
  | none => return if slot = 0 then some .operator else none
  | some h =>
    if slot = 0 then return some .operator
    else
      match h.kind with
      | .symbol => do
        let function := t.calledName config h
        if ((Head.ofName? function).bind (·.bodyOffset?)).any (· ≤ slot) then
          return some .expression
        else return some (.argument function (← sub slot 1))
      | .vector => return some .expression
      | _ => return none

/-- The first active forms of the calls around the cursor, each with the ordinal of the
    cursor in the call. -/
def callStates : Option (List (Option Node × Nat)) := do
  (← calls t c config.maxTraversalDepth).mapM fun n => do
    return ((← activeForms t n).head?, ← ordinal t c n)

/-- The slot that the nearest call with a meaning of its own gives to the cursor. -/
def callSlot : Option (Option Slot) := do
  let slots ← (← callStates t config c).mapM fun x => slotInCall t config x.2 x.1
  return slots.findSome? id

/-- The slot of the cursor. -/
def slot : Option Slot := do
  let isOutside := (← calls t c config.maxTraversalDepth).isEmpty && c.typed.isEmpty
  let rules :=
    [c.keywordSlot?, if isOutside then some .newForm else none, ← parameterVectorSlot t config c,
     ← bindingSlot t config c, ← definitionSlot t config c, ← namespaceSlot t config c,
     ← callSlot t config c]
  return (rules.findSome? id).getD .expression

/-- The name called by the nearest call that the cursor is an argument of. -/
def calledAround : Option (Option String) := do
  match (← callStates t config c).find? fun x => 0 < x.2 with
  | some (some h, _) => return if h.kind = .symbol then some (t.calledName config h) else none
  | _ => return none

/-- The text of the namespace declaration that matters in a slot. -/
def nsText (slot : Slot) : Option (Option (List Char)) := do
  match slot, ← namespaceAround t config c with
  | .inNamespace .name, _ => return none
  | .inNamespace _, some ns => return some (← window t ns c.offset config.namespaceWindow)
  | _, _ => return none

/-- What is known about the cursor from the nodes around it. -/
def contextOf : Option Context := do
  let slot ← slot t config c
  return ⟨slot, ← calledAround t config c, c.typed, ← nsText t config c slot⟩

section Rules

variable {t c} (ht : t.InOrder) (hc : c.location ∈ t.locations)
include ht hc

theorem namespaceAround_eq :
    namespaceAround t config c = some (t.namespaceAround? config c) := by
  simp only [namespaceAround, headedCalls_eq config ht hc, Option.bind_eq_bind, Option.bind_some,
    List.find?_map, Option.map_map]
  exact congrArg some Option.map_id'

omit ht in
theorem mem_nodes_of_namespaceAround? {n : Node} (hn : t.namespaceAround? config c = some n) :
    n ∈ t.nodes :=
  calls_subset_nodes hc _ n (List.mem_of_find?_eq_some hn)

theorem functionAround_eq : functionAround t config c = some (t.functionAround? config c) := by
  simp only [functionAround, headedCalls_eq config ht hc, Option.bind_eq_bind, Option.bind_some,
    List.findSome?_map]
  rfl

theorem parameterVectorSlot_eq :
    parameterVectorSlot t config c = some (t.parameterVectorSlot? config c) := by
  simp only [parameterVectorSlot, functionAround_eq config ht hc, Option.bind_eq_bind,
    Option.bind_some, Tree.parameterVectorSlot?]
  cases hfunction : t.functionAround? config c with
  | none => rfl
  | some x =>
    obtain ⟨m, hm, hx⟩ := List.exists_of_findSome?_eq_some hfunction
    obtain ⟨slot, -, rfl⟩ := Option.map_eq_some_iff.1 hx
    have hnode := calls_subset_nodes hc _ m hm
    simp only [Option.bind_some, activeForms_eq ht hnode, ordinal_eq ht hc hnode]
    rfl

theorem isAtValue_eq (h : Head) {v : Node} (hv : v ∈ t.nodes) :
    isAtValue t c h v = some (c.isAtValue h v) := by
  simp only [isAtValue, ordinal_eq ht hc hv, activeForms_eq ht hv, Option.bind_eq_bind,
    Option.bind_some, Cursor.isAtValue]
  cases h.alternates with
  | false => rfl
  | true =>
    by_cases hfor : h = .forIn
    · by_cases hpos : 0 < c.ordinal v
      · simp [hfor, hpos, sub_eq hpos]
      · simp [hfor, hpos]
    · simp [hfor]

theorem isAtValueOf_eq {list v : Node} (hlist : list ∈ t.nodes) (hv : v ∈ t.nodes) :
    isAtValueOf t c list v = some ((t.head? list).any (c.isAtValue · v)) := by
  simp only [isAtValueOf, head_eq ht hlist, Option.bind_eq_bind, Option.bind_some]
  cases t.head? list with
  | none => rfl
  | some h => exact isAtValue_eq ht hc h hv

omit hc in
theorem isBindingVector_eq {l : Location} (hl : l ∈ t.locations) (v : Node) :
    isBindingVector t l.node v = some (t.isBindingVector l v) := by
  have hn := Tree.mem_nodes_of_mem_locations hl
  have hown : ownVector t l.node = some ((t.head? l.node).bind fun h =>
      if h.parameterSlot?.isSome then l.node.parameterVector?
      else if h.alternates then l.node.bindingVector? else none) := by
    simp only [ownVector, parameterVector_eq ht hn, bindingVector_eq ht hn, head_eq ht hn,
      Option.bind_eq_bind, Option.bind_some]
    cases t.head? l.node <;> rfl
  have hfunction : isInFunctionList t l.node = some (l.above.head?.any fun p =>
      p.kind == .list && ((t.head? p).bind (·.parameterSlot?)).isSome) := by
    simp only [isInFunctionList, parent_eq ht hl, Option.bind_eq_bind, Option.bind_some]
    cases hparent : l.above.head? with
    | none => rfl
    | some p =>
      have hp := mem_nodes_of_mem_above hl p (List.mem_of_head? hparent)
      simp only [takesParameters_eq ht hp, Option.bind_some, Option.any_some]
      cases t.head? p <;> rfl
  simp only [isBindingVector, hown, activeForms_eq ht hn, hfunction, Option.bind_eq_bind,
    Option.bind_some, Tree.isBindingVector]
  cases t.head? l.node with
  | none => rfl
  | some h =>
    simp only [Option.bind_some]
    cases h.parameterSlot?.isSome with
    | true => rfl
    | false => cases h.alternates <;> rfl

theorem bindingSlot_eq : bindingSlot t config c = some (t.bindingSlot? config c) := by
  simp only [bindingSlot, around_eq ht hc, Option.bind_eq_bind, Option.bind_some,
    Tree.bindingSlot?, List.takeWhile_map, List.getLast?_map, List.find?_map, Function.comp_def]
  have hpatterns : ∀ l ∈ (c.around config.maxTraversalDepth).takeWhile fun l =>
      l.node.kind == .vector || l.node.kind == .map, l ∈ t.locations := fun l hl =>
    around_subset_locations hc _ l (List.takeWhile_subset _ hl)
  generalize (c.around config.maxTraversalDepth).takeWhile (fun l =>
      l.node.kind == .vector || l.node.kind == .map) = patterns at hpatterns ⊢
  cases hlast : patterns.getLast? with
  | none => rfl
  | some outermost =>
    have hv := hpatterns outermost (List.mem_of_getLast? hlast)
    obtain ⟨v, above⟩ := outermost
    have hparent : parent t v = some above.head? := parent_eq ht hv
    simp only [Option.map_some, hparent, Option.bind_some]
    cases above with
    | nil => rfl
    | cons list above =>
      obtain ⟨hlist, -⟩ := Tree.parent_mem_locations hv rfl
      have hinner : isClosed t (((patterns.find? (·.node.kind == .vector)).map (·.node)).getD v) =
          some ((patterns.find? (·.node.kind == .vector)).getD
            ⟨v, list :: above⟩).node.isClosed := by
        cases hfind : patterns.find? (·.node.kind == .vector) with
        | none => exact isClosed_eq ht (Tree.mem_nodes_of_mem_locations hv)
        | some l =>
          have hl := hpatterns l (List.mem_of_find?_eq_some hfind)
          exact isClosed_eq ht (Tree.mem_nodes_of_mem_locations hl)
      have hbinding : isBindingVector t list v = some (t.isBindingVector ⟨list, above⟩ v) :=
        isBindingVector_eq ht hlist v
      have hvalue := isAtValueOf_eq ht hc (Tree.mem_nodes_of_mem_locations hlist)
        (Tree.mem_nodes_of_mem_locations hv)
      simp only [List.head?_cons, hinner, hbinding, hvalue, Option.bind_some, Location.parent?]
      rfl

theorem definitionSlot_eq : definitionSlot t config c = some (t.definitionSlot? config c) := by
  simp only [definitionSlot, calls_eq ht hc, Option.bind_eq_bind, Option.bind_some,
    Tree.definitionSlot?]
  cases hcall : (c.calls config.maxTraversalDepth).head? with
  | none => rfl
  | some n =>
    have hn := calls_subset_nodes hc _ n (List.mem_of_head? hcall)
    simp only [head_eq ht hn, ordinal_eq ht hc hn, Option.bind_some]
    rfl

theorem namespaceSlot_eq : namespaceSlot t config c = some (t.namespaceSlot? config c) := by
  simp only [namespaceSlot, namespaceAround_eq config ht hc, Option.bind_eq_bind,
    Option.bind_some, Tree.namespaceSlot?]
  cases hns : t.namespaceAround? config c with
  | none => rfl
  | some ns =>
    have hn := mem_nodes_of_namespaceAround? config hc hns
    simp only [ordinal_eq ht hc hn, window_eq, clauseAt_eq, Option.bind_some]
    cases c.ordinal ns with
    | zero => rfl
    | succ k => cases k <;> rfl

omit ht hc in
/-- A call with a meaning of its own gives the slot, the others leave it to the next. -/
theorem callSlot?_cons (n : Node) (ns : List Node) :
    ∃ found, slotInCall t config (c.ordinal n) n.activeForms.head? = some found ∧
      t.callSlot? config c (n :: ns) = found.or (t.callSlot? config c ns) := by
  rw [Tree.callSlot?]
  cases n.activeForms.head? with
  | none =>
    cases c.ordinal n with
    | zero => exact ⟨_, rfl, rfl⟩
    | succ k => exact ⟨_, rfl, rfl⟩
  | some h =>
    cases c.ordinal n with
    | zero => exact ⟨_, rfl, rfl⟩
    | succ k =>
      rw [slotInCall, if_neg (Nat.succ_ne_zero k), sub_eq (Nat.le_add_left 1 k)]
      dsimp only
      generalize h.kind = kind
      cases kind with
      | symbol =>
        dsimp only
        split
        · exact ⟨_, rfl, rfl⟩
        · exact ⟨_, rfl, rfl⟩
      | vector => exact ⟨_, rfl, rfl⟩
      | _ => exact ⟨_, rfl, rfl⟩

omit ht hc in
theorem exists_mapM_slotInCall_eq (ns : List Node) : ∃ slots,
    ((ns.map fun n => (n.activeForms.head?, c.ordinal n)).mapM fun x =>
      slotInCall t config x.2 x.1) = some slots ∧
    slots.findSome? id = t.callSlot? config c ns := by
  induction ns with
  | nil => exact ⟨[], rfl, rfl⟩
  | cons n ns ih =>
    obtain ⟨slots, hmap, hfind⟩ := ih
    obtain ⟨found, hfound, hcons⟩ := callSlot?_cons config n ns
    refine ⟨found :: slots, ?_, ?_⟩
    · rw [List.map_cons, List.mapM_cons, hmap, hfound]
      rfl
    · rw [hcons, ← hfind]
      cases found <;> rfl

theorem callStates_eq :
    callStates t config c =
      some ((c.calls config.maxTraversalDepth).map fun n =>
        (n.activeForms.head?, c.ordinal n)) := by
  rw [callStates, calls_eq ht hc]
  refine mapM_eq_some fun n hn => ?_
  have hnode := calls_subset_nodes hc _ n hn
  rw [activeForms_eq ht hnode, ordinal_eq ht hc hnode]
  rfl

theorem callSlot_eq :
    callSlot t config c = some (t.callSlot? config c (c.calls config.maxTraversalDepth)) := by
  obtain ⟨slots, hmap, hfind⟩ :=
    exists_mapM_slotInCall_eq config (t := t) (c := c) (c.calls config.maxTraversalDepth)
  simp only [callSlot, callStates_eq config ht hc, Option.bind_eq_bind, Option.bind_some, hmap]
  exact congrArg some hfind

theorem slot_eq : slot t config c = some (t.slot config c) := by
  simp only [slot, calls_eq ht hc, parameterVectorSlot_eq config ht hc, bindingSlot_eq config ht hc,
    definitionSlot_eq config ht hc, namespaceSlot_eq config ht hc, callSlot_eq config ht hc,
    Option.bind_eq_bind, Option.bind_some]
  rfl

theorem calledAround_eq : calledAround t config c = some (t.calledAround? config c) := by
  simp only [calledAround, callStates_eq config ht hc, Option.bind_eq_bind, Option.bind_some,
    List.find?_map, Function.comp_def, Tree.calledAround?]
  cases (c.calls config.maxTraversalDepth).find? (0 < c.ordinal ·) with
  | none => rfl
  | some n =>
    simp only [Option.map_some, Option.bind_some]
    cases n.activeForms.head? <;> rfl

theorem nsText_eq (slot : Slot) :
    nsText t config c slot = some (Context.nsText? t config c slot) := by
  simp only [nsText, namespaceAround_eq config ht hc, window_eq, Option.bind_eq_bind,
    Option.bind_some]
  cases slot with
  | inNamespace clause =>
    cases clause with
    | name => rfl
    | _ =>
      rw [Context.nsText?]
      · cases t.namespaceAround? config c <;> rfl
      · exact NsClause.noConfusion
  | _ => rfl

theorem contextOf_eq : contextOf t config c = some (Context.ofCursor t config c) := by
  simp only [contextOf, slot_eq config ht hc, calledAround_eq config ht hc,
    nsText_eq config ht hc, Option.bind_eq_bind, Option.bind_some]
  rfl

end Rules

end Typeahead.Checked
