import Typeahead.Engine.Offer
import Typeahead.Proofs.CheckedForms
import Typeahead.Proofs.Lookup

/-!
# Checked scopes

The names that can be used at a cursor, and what a file contributes to others, with nodes
looked up by their numbers. How many names a collector has added is found by subtraction.

* `lexicalBindings_eq`, `siblingBindings_eq`: the names around the cursor and those of the
  top level are found;
* `scopeAt_eq`: so is the scope at the cursor;
* `scan_eq`: so is the summary of a file.
-/

namespace Typeahead.Checked

variable (t : Tree)

/-! ### Local names -/

/-- The bindings that a clause makes visible to a cursor at `offset`. -/
def clauseBindings (cursor : Node) (offset depth : Nat) (x : BindingKind × Clause) :
    Option (List Binding) := do
  let holdsCursor ← isWithin t cursor x.2.pattern
  let names ← boundNames t x.2.pattern
  return if offset < x.2.visibleFrom || holdsCursor then []
    else (names.filter (·.span.stop ≤ offset)).map fun name =>
      { name := t.text name, kind := x.1, depth := .within depth }

/-- The bindings that a list makes visible to a cursor at `offset`. -/
def bindingsAt (cursor : Node) (offset depth : Nat) (n : Node) : Option (List Binding) := do
  return (← (← clausesAt t n).mapM (clauseBindings t cursor offset depth)).flatten

/-- The bindings that the given nodes make visible, from the inside out, `depth` functions
    being passed already. -/
def bindingsAlong (cursor : Node) (offset : Nat) : (depth : Nat) → List Node → Option (List Binding)
  | _, [] => return []
  | depth, n :: ns => do
    let isSkipped := !n.kind.isCall || (← isInert t n)
    let own ← bindingsAt t cursor offset depth n
    let isScopeRoot := (← head t n).any (·.isScopeRoot)
    if isSkipped then bindingsAlong cursor offset depth ns
    else
      return own ++ (← bindingsAlong cursor offset (if isScopeRoot then depth + 1 else depth) ns)

/-- The local names visible to a cursor at `offset`, from the `maxDepth` nodes around it. -/
def lexicalBindings (maxDepth : Nat) (cursor : Node) (offset : Nat) : Option (List Binding) := do
  bindingsAlong t cursor offset 0 ((← ancestors t cursor).take maxDepth)

section Local

variable {t} (ht : t.InOrder) {cursor : Location} (hcursor : cursor ∈ t.locations)
include ht hcursor

theorem bindingsAt_eq (offset depth : Nat) {l : Location} (hl : l ∈ t.locations) :
    bindingsAt t cursor.node offset depth l.node = some (t.bindingsAt cursor offset depth l) := by
  have hclauses : (t.clausesAt l).mapM (clauseBindings t cursor.node offset depth) = _ :=
    mapM_eq_some fun x hx => by
      rw [clauseBindings, isWithin_eq ht hcursor, boundNames_eq ht _ (pattern_mem_nodes hl hx)]
      rfl
  rw [bindingsAt, clausesAt_eq ht hl]
  simp only [Option.bind_eq_bind, Option.bind_some, hclauses]
  rfl

theorem bindingsAlong_eq (offset depth : Nat) {ls : List Location}
    (hls : ∀ l ∈ ls, l ∈ t.locations) :
    bindingsAlong t cursor.node offset depth (ls.map (·.node)) =
      some (t.bindingsAlong cursor offset depth ls) := by
  induction ls generalizing depth with
  | nil => rfl
  | cons l ls ih =>
    have hl := hls l List.mem_cons_self
    have hrest := fun depth => ih depth fun k hk => hls k (List.mem_cons_of_mem _ hk)
    simp only [List.map_cons, bindingsAlong, isInert_eq ht hl, bindingsAt_eq ht hcursor _ _ hl,
      head_eq ht (Tree.mem_nodes_of_mem_locations hl), hrest, Option.bind_eq_bind,
      Option.bind_some, Tree.bindingsAlong]
    split <;> rfl

theorem lexicalBindings_eq (maxDepth offset : Nat) :
    lexicalBindings t maxDepth cursor.node offset =
      some (t.lexicalBindings maxDepth cursor offset) := by
  rw [lexicalBindings, ancestors_eq ht hcursor]
  have hancestors := bindingsAlong_eq ht hcursor offset 0 fun l hl =>
    Tree.selfAndAncestors_subset_locations hcursor
      (List.mem_cons_of_mem _ (List.mem_of_mem_take (i := maxDepth) hl))
  rw [List.map_take, Location.ancestors, Location.map_node_chain] at hancestors
  exact hancestors

end Local

/-! ### Definitions of the file -/

/-- The second form of a list, if it is a symbol. -/
def nameSlot (n : Node) : Option (Option Node) := do
  return (← forms t n)[1]?.filter (·.kind == .symbol)

/-- The name of the innermost definition around a cursor, unless the cursor is that name. -/
def enclosingDefinition (cursor : Node) : Option (Option String) := do
  let lists ← ((← ancestors t cursor).filter (·.kind.isCall)).mapM (withHead t)
  match lists.find? fun x => x.2.any (·.isDefinition) with
  | none => return none
  | some (d, _) =>
    match ← nameSlot t d with
    | none => return none
    | some name => return if ← isWithin t cursor name then none else some (t.text name)

/-- The binding that a top-level form introduces at a cursor. -/
def siblingBinding (cursor n : Node) : Option (Option Binding) := do
  let own ← enclosingDefinition t cursor
  match (← head t n).bind (·.definitionKind?), ← nameSlot t n with
  | some kind, some slot =>
    let name := t.text slot
    let signature ← callSignature t n name
    return if ← isWithin t cursor slot then none
      else some {
        name
        kind := if own = some name then .selfRef kind else .localDef kind
        depth := .global
        signature }
  | _, _ => return none

/-- The definitions among the first `maxForms` top-level forms. -/
def siblingBindings (maxForms : Nat) (cursor : Node) : Option (List Binding) := do
  foundAll (fun f => do
      let b ← siblingBinding t cursor f.1
      return if f.1.kind.isCall && !f.2 then b else none)
    ((← judgedForms t t.root).take maxForms)

section Definitions

variable {t} {n : Node}

theorem root_mem_locations (t : Tree) : ⟨t.root, []⟩ ∈ t.locations := t.root.self_mem_locations []

/-- The forms of a node that are judged are its children. -/
theorem mem_nodes_of_mem_judgedForms {f : Node × Bool} (hn : n ∈ t.nodes)
    (hf : f ∈ n.judgedForms) : f.1 ∈ t.nodes := by
  have hmem := (map_fst_judgeForms_sublist [] n.children).subset (List.mem_map_of_mem hf)
  exact Tree.mem_nodes_of_mem_children hn hmem

variable (ht : t.InOrder)
include ht

theorem judgedForms_root_eq : judgedForms t t.root = some t.root.judgedForms :=
  judgedForms_eq ht (root_mem_locations t)

theorem nameSlot_eq (hn : n ∈ t.nodes) : nameSlot t n = some (Tree.nameSlot? n) := by
  rw [nameSlot, forms_eq ht hn]
  rfl

variable {cursor : Location} (hcursor : cursor ∈ t.locations)
include hcursor

theorem enclosingDefinition_eq :
    enclosingDefinition t cursor.node = some (t.enclosingDefinition? cursor) := by
  have habove := mem_nodes_of_mem_above hcursor
  have hcalls : ∀ n ∈ cursor.above.filter (·.kind.isCall), n ∈ t.nodes := fun n hn =>
    habove n (List.mem_filter.1 hn).1
  simp only [enclosingDefinition, ancestors_eq ht hcursor, mapM_withHead_eq ht hcalls,
    Option.bind_eq_bind, Option.bind_some, List.find?_map, List.find?_filter, Function.comp_def,
    Bool.decide_and, Bool.decide_eq_true, Tree.enclosingDefinition?]
  cases hfind : cursor.above.find? fun n => n.kind.isCall && (t.head? n).any (·.isDefinition) with
  | none => rfl
  | some d =>
    have hd := habove d (List.mem_of_find?_eq_some hfind)
    simp only [Option.map_some, nameSlot_eq ht hd, Option.bind_some]
    cases Tree.nameSlot? d with
    | none => rfl
    | some name =>
      simp only [isWithin_eq ht hcursor, Option.bind_some]
      rfl

theorem siblingBinding_eq (hn : n ∈ t.nodes) :
    siblingBinding t cursor.node n = some (t.siblingBinding? cursor n) := by
  simp only [siblingBinding, enclosingDefinition_eq ht hcursor, head_eq ht hn, nameSlot_eq ht hn,
    callSignature_eq ht hn, isWithin_eq ht hcursor, Option.bind_eq_bind, Option.bind_some,
    Tree.siblingBinding?]
  cases t.head? n with
  | none => rfl
  | some h =>
    simp only [Option.bind_some]
    cases h.definitionKind? with
    | none => rfl
    | some kind =>
      simp only [Option.bind_some]
      cases Tree.nameSlot? n <;> rfl

theorem siblingBindings_eq (maxForms : Nat) :
    siblingBindings t maxForms cursor.node = some (t.siblingBindings maxForms cursor) := by
  rw [siblingBindings, judgedForms_root_eq ht]
  refine foundAll_eq fun f hf => ?_
  have hnode := mem_nodes_of_mem_judgedForms t.root.mem_preorder_self (List.mem_of_mem_take hf)
  rw [siblingBinding_eq ht hcursor hnode]
  rfl

end Definitions

/-! ### The scope -/

/-- The bindings that a collector finds for a cursor. -/
def collect (config : Config) (c : Cursor) (summaries : List Summary) :
    Collector → Option (List Binding)
  | .lexical => lexicalBindings t config.maxTraversalDepth c.location.node c.offset
  | .sibling => siblingBindings t config.maxSiblingDefinitions c.location.node
  | .project =>
    return projectBindings config.maxProjectFiles config.maxDefinitionsPerFile summaries

/-- A scope with the bindings of one more collector, of which it is found how many are new. -/
def addAll (s : Scope) (bs : List Binding) : Option Scope := do
  let more := bs.foldl Scope.insert s
  let _ ← sub more.bindings.length s.bindings.length
  return more

/-- The scope at a cursor. -/
def scopeAt (config : Config) (c : Cursor) (summaries : List Summary) : Option Scope := do
  let found ← [Collector.lexical, .sibling, .project].mapM (collect t config c summaries)
  found.foldlM addAll (.empty (some config.maxBindings))

/-- A node with whether it is inert. -/
def withInert (n : Node) : Option (Node × Bool) := return (n, ← isInert t n)

/-- The keywords of a file that are not inert, that at the cursor left out. -/
def keywordsAround (config : Config) (c : Cursor) : Option (List String) := do
  let isUsed := fun (x : Node × Bool) =>
    x.1.kind == .keyword && x.1.id != c.location.node.id && !x.2 &&
      !config.containsPlaceholder (t.chars x.1)
  return ((← t.nodes.mapM (withInert t)).filter isUsed).map fun x => t.text x.1

theorem length_le_foldl_insert (s : Scope) (bs : List Binding) :
    s.bindings.length ≤ (bs.foldl Scope.insert s).bindings.length := by
  induction bs generalizing s with
  | nil => exact Nat.le_refl _
  | cons b bs ih =>
    refine Nat.le_trans ?_ (ih (s.insert b))
    rw [Scope.insert]
    split
    · rw [List.length_append]
      exact Nat.le_add_right _ _
    · exact Nat.le_refl _

theorem addAll_eq (s : Scope) (bs : List Binding) :
    addAll s bs = some (bs.foldl Scope.insert s) := by
  rw [addAll, sub_eq (length_le_foldl_insert s bs)]
  rfl

section Scopes

variable {t} (ht : t.InOrder) {c : Cursor} (hc : c.location ∈ t.locations) (config : Config)
include ht hc

theorem collect_eq (summaries : List Summary) (k : Collector) :
    collect t config c summaries k = some (t.collect config c summaries k) := by
  cases k with
  | lexical => exact lexicalBindings_eq ht hc _ _
  | sibling => exact siblingBindings_eq ht hc _
  | project => rfl

theorem scopeAt_eq (summaries : List Summary) :
    scopeAt t config c summaries = some (t.scopeAt config c summaries) := by
  have hfound : [Collector.lexical, .sibling, .project].mapM (collect t config c summaries) = _ :=
    mapM_eq_some fun k _ => collect_eq ht hc config summaries k
  rw [scopeAt, hfound]
  simp only [Option.bind_eq_bind, Option.bind_some, foldlM_eq_some addAll_eq, Tree.scopeAt,
    Tree.resolve, Scope.ofList]
  rw [List.flatMap_def, List.foldl_flatten]

omit hc in
theorem keywordsAround_eq : keywordsAround t config c = some (t.keywordsAround config c) := by
  have hjudged : t.nodes.mapM (withInert t) =
      some (t.locations.map fun l => (l.node, t.isInert l)) := by
    rw [Tree.nodes, ← Node.map_node_locations [] t.root, List.mapM_map]
    refine mapM_eq_some fun l hl => ?_
    change withInert t l.node = _
    rw [withInert, isInert_eq ht hl]
    rfl
  simp only [keywordsAround, hjudged, Option.bind_eq_bind, Option.bind_some, List.filter_map,
    List.map_map]
  rfl

end Scopes

/-! ### Summaries of files -/

/-- The top-level lists that are not deactivated, with their heads. -/
def topLevelForms : Option (List (Head × Node)) := do
  foundAll (fun f => do
      let h ← head t f.1
      return if f.1.kind.isCall && !f.2 then h.map (·, f.1) else none)
    (← judgedForms t t.root)

/-- The first namespace that a top-level list declares. -/
def declaredNs : Option (Option String) := do
  foundFirst (fun x => do
      let name ← nameSlot t x.2
      return if x.1 = .ns then name.map t.text else none)
    (← topLevelForms t)

/-- Whether the third form of a list is an attribute map that makes it private. -/
def isPrivate (n : Node) : Option Bool := do
  return (← forms t n)[2]?.any fun a =>
    a.kind == .map && containsText ":private".toList (t.chars a)

/-- The public definition that a list with the head `h` is. -/
def definitionOf (h : Head) (n : Node) : Option (Option Definition) := do
  match h.definitionKind?, ← nameSlot t n with
  | some kind, some name =>
    let signature ← callSignature t n (t.text name)
    return if h.isPublic && !(← isPrivate t n) then some ⟨t.text name, kind, signature⟩ else none
  | _, _ => return none

/-- The public definitions of the top level. -/
def publicDefinitions : Option (List Definition) := do
  foundAll (fun x => definitionOf t x.1 x.2) (← topLevelForms t)

/-- The summary of a file with the given text. -/
def scan (path text : String) (maxText : Nat) : Option Summary := do
  let cs := text.toList
  if maxText < byteLength cs then return .empty path
  else
    let t ← read cs
    return ⟨path, ← declaredNs t, ← publicDefinitions t⟩

section Summaries

variable {t} (ht : t.InOrder)
include ht

theorem topLevelForms_eq : topLevelForms t = some t.topLevelForms := by
  rw [topLevelForms, judgedForms_root_eq ht]
  refine foundAll_eq fun f hf => ?_
  rw [head_eq ht (mem_nodes_of_mem_judgedForms t.root.mem_preorder_self hf)]
  rfl

omit ht in
theorem mem_nodes_of_mem_topLevelForms {x : Head × Node} (hx : x ∈ t.topLevelForms) :
    x.2 ∈ t.nodes := by
  obtain ⟨⟨n, off⟩, hf, hsome⟩ := List.mem_filterMap.1 hx
  dsimp only at hsome
  split at hsome
  · obtain ⟨h, -, rfl⟩ := Option.map_eq_some_iff.1 hsome
    exact mem_nodes_of_mem_judgedForms t.root.mem_preorder_self hf
  · cases hsome

theorem declaredNs_eq : declaredNs t = some t.declaredNs? := by
  rw [declaredNs, topLevelForms_eq ht]
  refine foundFirst_eq fun x hx => ?_
  rw [nameSlot_eq ht (mem_nodes_of_mem_topLevelForms hx)]
  rfl

theorem definitionOf_eq (h : Head) {n : Node} (hn : n ∈ t.nodes) :
    definitionOf t h n = some (t.definitionOf? h n) := by
  have hprivate : isPrivate t n = some (t.isPrivate n) := by
    rw [isPrivate, forms_eq ht hn]
    rfl
  simp only [definitionOf, nameSlot_eq ht hn, callSignature_eq ht hn, hprivate,
    Option.bind_eq_bind, Option.bind_some, Tree.definitionOf?]
  cases h.definitionKind? with
  | none => rfl
  | some kind =>
    simp only [Option.bind_some]
    cases Tree.nameSlot? n <;> rfl

theorem publicDefinitions_eq : publicDefinitions t = some t.publicDefinitions := by
  rw [publicDefinitions, topLevelForms_eq ht]
  exact foundAll_eq fun x hx => definitionOf_eq ht x.1 (mem_nodes_of_mem_topLevelForms hx)

end Summaries

theorem scan_eq (path text : String) (maxText : Nat) :
    scan path text maxText = some (Summary.scan path text maxText) := by
  have ht := Builder.inOrder_read text.toList
  simp only [scan, read_eq, declaredNs_eq ht, publicDefinitions_eq ht, Option.bind_eq_bind,
    Option.bind_some, Summary.scan]
  split <;> rfl

end Typeahead.Checked
