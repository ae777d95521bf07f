import Typeahead.Proofs.CheckedNodes

/-!
# Checked access to forms

The structure of a list is found from its active forms: its head, the vector where it
binds names, the clauses there, and the names in their patterns. Clauses are found by
indices into lists of forms.

* `head_eq`, `callSignature_eq`: the head and the call shape of a list are found;
* `clausesAt_eq`, `boundNames_eq`: so are its clauses and the names in a pattern.
-/

namespace Typeahead.Checked

variable (t : Tree)

/-! ### Heads and vectors -/

/-- The head of a list. -/
def head (n : Node) : Option (Option Head) := do
  match (← activeForms t n).head? with
  | some h => return if h.kind = .symbol then Head.ofName? (t.text h) else none
  | none => return none

/-- A list with its head. -/
def withHead (n : Node) : Option (Node × Option Head) := return (n, ← head t n)

/-- The parameter vector of a function. -/
def parameterVector (n : Node) : Option (Option Node) := do
  return (((← activeForms t n).drop 1).takeWhile (!·.kind.isCall)).find? (·.kind == .vector)

/-- The form after the head, if it is a vector. -/
def bindingVector (n : Node) : Option (Option Node) := do
  return (← activeForms t n)[1]?.filter (·.kind == .vector)

/-- Whether a list has a head that takes parameters. -/
def takesParameters (n : Node) : Option Bool := return (← head t n).any (·.parameterSlot?.isSome)

/-- Whether the parent of a node is a function or a macro. -/
def isInFunction (n : Node) : Option Bool := do
  match ← parent t n with
  | none => return false
  | some p => takesParameters t p

/-- The call shape of a function, from the forms of its parameter vector. -/
def callSignature (n : Node) (name : String) : Option (Option String) := do
  if ← takesParameters t n then
    match ← parameterVector t n with
    | none => return none
    | some params =>
      let texts := (← forms t params).map t.text
      return some ("(" ++ " ".intercalate (name :: texts) ++ ")")
  else return none

section Heads

variable {t} {n : Node}

theorem mem_nodes_of_mem_activeForms {c : Node} (hn : n ∈ t.nodes) (hc : c ∈ n.activeForms) :
    c ∈ t.nodes :=
  Tree.mem_nodes_of_mem_children hn (n.activeForms_subset_children hc)

variable (ht : t.InOrder)
include ht

theorem head_eq (hn : n ∈ t.nodes) : head t n = some (t.head? n) := by
  simp only [head, activeForms_eq ht hn, Tree.head?, Option.bind_eq_bind, Option.bind_some]
  cases n.activeForms.head? <;> rfl

theorem mapM_withHead_eq {ns : List Node} (hns : ∀ n ∈ ns, n ∈ t.nodes) :
    ns.mapM (withHead t) = some (ns.map fun n => (n, t.head? n)) := by
  refine mapM_eq_some fun n hn => ?_
  rw [withHead, head_eq ht (hns n hn)]
  rfl

theorem parameterVector_eq (hn : n ∈ t.nodes) :
    parameterVector t n = some n.parameterVector? := by
  rw [parameterVector, activeForms_eq ht hn]
  rfl

theorem bindingVector_eq (hn : n ∈ t.nodes) : bindingVector t n = some n.bindingVector? := by
  rw [bindingVector, activeForms_eq ht hn]
  rfl

theorem takesParameters_eq (hn : n ∈ t.nodes) :
    takesParameters t n = some ((t.head? n).any (·.parameterSlot?.isSome)) := by
  rw [takesParameters, head_eq ht hn]
  rfl

theorem isInFunction_eq {l : Location} (hl : l ∈ t.locations) :
    isInFunction t l.node = some (t.isInFunction l) := by
  have habove := mem_nodes_of_mem_above hl
  simp only [isInFunction, parent_eq ht hl, Option.bind_eq_bind, Option.bind_some,
    Tree.isInFunction]
  cases hparent : l.above.head? with
  | none => rfl
  | some p => exact takesParameters_eq ht (habove p (List.mem_of_head? hparent))

theorem callSignature_eq (hn : n ∈ t.nodes) (name : String) :
    callSignature t n name = some (t.callSignature? n name) := by
  simp only [callSignature, takesParameters_eq ht hn, parameterVector_eq ht hn,
    Option.bind_eq_bind, Option.bind_some, Tree.callSignature?]
  cases hhead : t.head? n with
  | none => rfl
  | some h =>
    cases hslot : h.parameterSlot? with
    | none => simp [hslot]
    | some slot =>
      cases hparams : n.parameterVector? with
      | none => simp [hslot]
      | some params =>
        have hmem := mem_nodes_of_mem_activeForms hn
          (Tree.mem_activeForms_of_parameterVector? hparams)
        simp [hslot, forms_eq ht hmem]

end Heads

/-! ### Clauses -/

/-- The items of a list two by two, the last one alone if there is no other. -/
def chunksOfTwo {α : Type} : List α → List (List α)
  | [] => []
  | [x] => [[x]]
  | x :: y :: xs => [x, y] :: chunksOfTwo xs

/-- The clauses of names and values in turn. -/
def pairClauses (forms : List Node) : Option (List Clause) :=
  (chunksOfTwo forms).mapM fun pair => do
    let p ← pair[0]?
    return ⟨p, (pair[1]?.getD p).span.stop⟩

/-- The clauses that a modifier of a comprehension introduces by the form after the
    keyword `k`, if there is one. -/
def modifierClauses (k : Node) (v : Option Node) : Option (List Clause) := do
  match v with
  | none => return []
  | some v =>
    let forms ← activeForms t v
    if v.kind ≠ .vector then return []
    else if t.text k = ":let" then pairClauses forms
    else if t.text k = ":reduce" then
      return (forms.head?.map fun acc => (⟨acc, v.span.stop⟩ : Clause)).toList
    else return []

/-- The clauses of a comprehension from the index `i` of its forms on. -/
def forClausesFrom (forms : List Node) (i : Nat) : Option (List Clause) :=
  if i < forms.length then do
    let form ← forms[i]?
    if form.kind = .keyword then
      return (← modifierClauses t form forms[i + 1]?) ++ (← forClausesFrom forms (i + 2))
    else
      let last := (forms[i + 2]? <|> forms[i + 1]?).getD form
      return ⟨form, last.span.stop⟩ :: (← forClausesFrom forms (i + 3))
  else return []
termination_by forms.length - i
decreasing_by all_goals omega

/-- The clauses that the forms of a vector make. -/
def styleClauses : Style → List Node → Option (List Clause)
  | .pairs, fs => pairClauses fs
  | .firstPair, fs => return (← pairClauses fs).take 1
  | .each, fs => return Clause.ofEach fs
  | .comprehension, fs => forClausesFrom t fs 0

/-- The clauses of the form that a list names what it binds by. -/
def clausesOf : Naming → Node → Option (List Clause)
  | .pattern _, p => return [.atEnd p]
  | .vector s, v => do styleClauses t s (← activeForms t v)

/-- The rule for a list. -/
def rule (n : Node) : Option (Option Rule) := do
  match (← activeForms t n).head? with
  | none => return none
  | some first =>
    if first.kind = .vector then
      return if ← isInFunction t n then some ⟨.parameter, .pattern .first⟩ else none
    else return (← head t n).bind Head.rule?

/-- The clauses of a list, with the kinds of the names that they bind. -/
def clausesAt (n : Node) : Option (List (BindingKind × Clause)) := do
  match ← rule t n with
  | none => return []
  | some r =>
    match r.naming.slot.find (← activeForms t n) with
    | none => return []
    | some f => return (← clausesOf t r.naming f).map (r.kind, ·)

theorem pairClauses_eq (forms : List Node) :
    pairClauses forms = some (Clause.ofPairs forms) := by
  rw [pairClauses]
  fun_induction Clause.ofPairs forms with
  | case1 => rfl
  | case2 p => rfl
  | case3 p v ns ih =>
    rw [chunksOfTwo, List.mapM_cons, ih]
    rfl

/-- One step over the forms of a comprehension, of which `p` is the next. -/
theorem forClausesFrom_append (pre : List Node) (p : Node) (rest : List Node) :
    forClausesFrom t (pre ++ p :: rest) pre.length =
      if p.kind = .keyword then do
        return (← modifierClauses t p rest[0]?) ++
          (← forClausesFrom t (pre ++ p :: rest) (pre.length + 2))
      else do
        return ⟨p, ((rest[1]? <|> rest[0]?).getD p).span.stop⟩ ::
          (← forClausesFrom t (pre ++ p :: rest) (pre.length + 3)) := by
  have hget : ∀ k, (pre ++ p :: rest)[pre.length + k]? = (p :: rest)[k]? := by
    intro k
    rw [List.getElem?_append_right (Nat.le_add_right _ _), Nat.add_sub_cancel_left]
  have hfirst : (pre ++ p :: rest)[pre.length]? = some p := hget 0
  rw [forClausesFrom, if_pos (by simp), hfirst, hget 1, hget 2]
  rfl

theorem forClausesFrom_of_le {forms : List Node} {i : Nat} (h : forms.length ≤ i) :
    forClausesFrom t forms i = some [] := by
  rw [forClausesFrom, if_neg (Nat.not_lt_of_le h)]
  rfl

theorem mem_of_find_eq_some {slot : NameSlot} {fs : List Node} {f : Node}
    (h : slot.find fs = some f) : f ∈ fs := by
  cases slot with
  | first => exact List.mem_of_head? h
  | parameters => exact List.drop_subset _ _ (List.takeWhile_subset _ (List.mem_of_find?_eq_some h))
  | bindings => exact List.mem_of_getElem? (Option.filter_eq_some_iff.1 h).1
  | third => exact List.mem_of_getElem? h

section Clauses

variable {t} (ht : t.InOrder) {n : Node}
include ht

theorem modifierClauses_eq (k : Node) {v : Node} (hv : v ∈ t.nodes) :
    modifierClauses t k (some v) = some (t.modifierClauses k v) := by
  simp only [modifierClauses, activeForms_eq ht hv, Option.bind_eq_bind, Option.bind_some,
    pairClauses_eq, Tree.modifierClauses]
  split
  · rfl
  split
  · rfl
  split <;> rfl

theorem forClausesFrom_eq (pre : List Node) {rest : List Node} (hrest : ∀ f ∈ rest, f ∈ t.nodes) :
    forClausesFrom t (pre ++ rest) pre.length = some (t.forClauses rest) := by
  fun_induction Tree.forClauses t rest generalizing pre with
  | case1 => exact forClausesFrom_of_le t (by simp)
  | case2 p hp =>
    rw [forClausesFrom_append, if_pos hp, forClausesFrom_of_le t (by simp)]
    rfl
  | case3 p hp =>
    rw [forClausesFrom_append, if_neg hp, forClausesFrom_of_le t (by simp)]
    rfl
  | case4 p v hp =>
    have hmodifier := modifierClauses_eq ht p (hrest v (by simp))
    rw [forClausesFrom_append, if_pos hp, forClausesFrom_of_le t (by simp), List.getElem?_cons_zero,
      hmodifier]
    exact congrArg some (List.append_nil _)
  | case5 p v hp =>
    rw [forClausesFrom_append, if_neg hp, forClausesFrom_of_le t (by simp)]
    rfl
  | case6 p v e ns hp ih =>
    have hmodifier := modifierClauses_eq ht p (hrest v (by simp))
    have hnext := ih (pre ++ [p, v]) fun f hf => hrest f (by simp [List.mem_cons.1 hf])
    rw [List.append_assoc, List.length_append] at hnext
    rw [forClausesFrom_append, if_pos hp, List.getElem?_cons_zero, hmodifier]
    exact congrArg (fun o => o.bind fun cs => some (t.modifierClauses p v ++ cs)) hnext
  | case7 p v e ns hp ih =>
    have hnext := ih (pre ++ [p, v, e]) fun f hf => hrest f (by simp [hf])
    rw [List.append_assoc, List.length_append] at hnext
    rw [forClausesFrom_append, if_neg hp]
    exact congrArg (fun o => o.bind fun cs => some (⟨p, e.span.stop⟩ :: cs)) hnext

theorem styleClauses_eq (style : Style) {fs : List Node} (hfs : ∀ f ∈ fs, f ∈ t.nodes) :
    styleClauses t style fs = some (style.clauses t fs) := by
  cases style with
  | pairs => exact pairClauses_eq fs
  | firstPair =>
    rw [styleClauses, pairClauses_eq]
    rfl
  | each => rfl
  | comprehension => exact forClausesFrom_eq ht [] hfs

theorem clausesOf_eq (naming : Naming) (hn : n ∈ t.nodes) :
    clausesOf t naming n = some (naming.clausesOf t n) := by
  cases naming with
  | pattern slot => rfl
  | vector style =>
    rw [clausesOf, activeForms_eq ht hn]
    exact styleClauses_eq ht style fun f hf => mem_nodes_of_mem_activeForms hn hf

theorem rule_eq {l : Location} (hl : l ∈ t.locations) : rule t l.node = some (t.rule? l) := by
  have hn := Tree.mem_nodes_of_mem_locations hl
  simp only [rule, activeForms_eq ht hn, head_eq ht hn, isInFunction_eq ht hl, Tree.rule?,
    Option.bind_eq_bind, Option.bind_some]
  cases l.node.activeForms.head? with
  | none => rfl
  | some first =>
    dsimp only
    split <;> rfl

theorem clausesAt_eq {l : Location} (hl : l ∈ t.locations) :
    clausesAt t l.node = some (t.clausesAt l) := by
  have hn := Tree.mem_nodes_of_mem_locations hl
  simp only [clausesAt, rule_eq ht hl, activeForms_eq ht hn, Tree.clausesAt_eq,
    Option.bind_eq_bind, Option.bind_some]
  cases t.rule? l with
  | none => rfl
  | some r =>
    simp only [Option.map_some, Option.getD_some, Rule.clauses]
    cases hfind : r.naming.slot.find l.node.activeForms with
    | none => rfl
    | some f =>
      have hf := mem_nodes_of_mem_activeForms hn (mem_of_find_eq_some hfind)
      simp only [clausesOf_eq ht _ hf, Option.bind_some]
      rfl

omit ht in
/-- The pattern of a clause is a node of the tree. -/
theorem pattern_mem_nodes {l : Location} (hl : l ∈ t.locations) {x : BindingKind × Clause}
    (hx : x ∈ t.clausesAt l) : x.2.pattern ∈ t.nodes := by
  obtain ⟨kind, hkind⟩ := t.exists_isClauseOf_clausesAt l
  have hpattern := l.node.preorderAll_activeForms_subset (hkind x hx).isAmong.pattern_mem
  exact Node.preorder_subset_of_mem _ (Tree.mem_nodes_of_mem_locations hl) hpattern

end Clauses

/-! ### Names in patterns -/

mutual

/-- The symbols that a pattern binds, those of its active parts included. -/
def boundNames : Node → Option (List Node)
  | ⟨id, kind, span, parts⟩ =>
    let n : Node := ⟨id, kind, span, parts⟩
    match kind with
    | .symbol => return if t.text n = "&" ∨ t.text n = "..." then [] else [n]
    | .vector | .map => do
      let _ ← children t n
      boundNamesAmong parts
    | _ => return []

/-- The symbols bound by the active forms among siblings. -/
def boundNamesAmong : List Node → Option (List Node)
  | [] => return []
  | n :: ns => do
    let isOff ← isDeactivated t n
    let names ← if n.kind.isForm && !isOff then boundNames n else pure []
    return names ++ (← boundNamesAmong ns)

end

section Names

variable {t} (ht : t.InOrder)
include ht

mutual

theorem boundNames_eq : (n : Node) → n ∈ t.nodes → boundNames t n = some (t.boundNames n)
  | ⟨id, kind, span, parts⟩, hn => by
    obtain ⟨l, hl, hnode⟩ := Tree.exists_location_of_mem_nodes hn
    have hparts := boundNamesAmong_eq parts [] hl (congrArg Node.children hnode)
    cases kind with
    | symbol =>
      rw [boundNames, Tree.boundNames]
      rfl
    | vector | map =>
      rw [boundNames, Tree.boundNames, children_eq ht hn]
      exact hparts
    | _ => simp only [boundNames, Tree.boundNames]; rfl

theorem boundNamesAmong_eq : (ns pre : List Node) → {l : Location} → l ∈ t.locations →
    l.node.children = pre ++ ns →
    boundNamesAmong t ns = some (t.boundNamesAmong (pre.map (·.kind)).reverse ns)
  | [], pre, l, _, _ => by
    rw [boundNamesAmong, Tree.boundNamesAmong]
    rfl
  | n :: ns, pre, l, hl, hchildren => by
    have hmem : n ∈ l.node.children := by rw [hchildren]; simp
    have hn : ⟨n, l.node :: l.above⟩ ∈ t.locations :=
      Tree.children_subset_locations hl (List.mem_map.2 ⟨n, hmem, rfl⟩)
    have hnames := boundNames_eq n (Tree.mem_nodes_of_mem_locations hn)
    have hrest := boundNamesAmong_eq ns (pre ++ [n]) hl (by simp [hchildren])
    rw [List.map_append, List.map_singleton, List.reverse_append, List.reverse_singleton,
      List.singleton_append] at hrest
    simp only [boundNamesAmong, Tree.boundNamesAmong, isDeactivated_child ht hn hchildren, hnames,
      hrest, Option.bind_eq_bind, Option.bind_some]
    split <;> rfl

end

end Names

end Typeahead.Checked
