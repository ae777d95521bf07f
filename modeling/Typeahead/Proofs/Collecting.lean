import Mathlib.Data.List.Infix
import Typeahead.Proofs.Shadowing
import Typeahead.Scope.Collector

/-!
# Filling a scope

Collectors fill a scope one after the other. Each walks over its own part of the program, with a
limit of its own, and looks now and then whether the scope is full: the walk around the cursor
before every list, the walk over the file before every form, the walk over the project before
every definition (`Tree.collectInto`). Where it stops makes no difference, since a full scope takes
nothing. So the scope is that of all bindings that the collectors would find, which is how
`Tree.resolve` has it, and all that a limit does is to cut off.

* `Tree.gather_eq`: collectors that stop early and collectors that do not fill the same scope;
* `Scope.bindings_ofList_some`: a scope with a limit has the first bindings of one without;
* `Tree.isPrefix_found`: a collector with a smaller limit finds the first of the same bindings;
* `Tree.scopeAt_layered`: the order of the scope at a cursor;
* `Tree.gather_truncates`: limits only cut off.
-/

namespace Typeahead

/-! ### Full scopes -/

namespace Scope

variable {s : Scope}

theorem insert_of_isFull (h : s.isFull = true) (b : Binding) : s.insert b = s := by
  rw [insert, admits, h]
  rfl

theorem foldl_insert_of_isFull (h : s.isFull = true) (bs : List Binding) :
    bs.foldl insert s = s := by
  induction bs with
  | nil => rfl
  | cons b bs ih => rw [List.foldl_cons, insert_of_isFull h, ih]

/-- The scope with the definitions of a file, if it had room before each of them, and else the
    scope that had none. -/
def fillFile (s : Scope) : List Binding → Except Scope Scope
  | [] => .ok s
  | b :: bs => if s.isFull then .error s else (s.insert b).fillFile bs

/-- The scope with the definitions of files. The walk ends in the file in which the scope turns
    out to be full. -/
def fillFiles (s : Scope) : List (List Binding) → Scope
  | [] => s
  | bs :: files =>
    match s.fillFile bs with
    | .ok s => s.fillFiles files
    | .error s => s

theorem fillFile_cases (s : Scope) (bs : List Binding) :
    s.fillFile bs = .ok (bs.foldl insert s) ∨
      s.fillFile bs = .error (bs.foldl insert s) ∧ (bs.foldl insert s).isFull = true := by
  induction bs generalizing s with
  | nil => exact .inl rfl
  | cons b bs ih =>
    rw [fillFile]
    split
    · next hfull =>
      rw [foldl_insert_of_isFull hfull]
      exact .inr ⟨rfl, hfull⟩
    · exact ih (s.insert b)

theorem fillFiles_eq (s : Scope) (files : List (List Binding)) :
    s.fillFiles files = files.flatten.foldl insert s := by
  induction files generalizing s with
  | nil => rfl
  | cons bs files ih =>
    rw [fillFiles, List.flatten_cons, List.foldl_append]
    rcases s.fillFile_cases bs with h | ⟨h, hfull⟩
    · rw [h]
      exact ih _
    · rw [h]
      exact (foldl_insert_of_isFull hfull _).symm

end Scope

/-! ### Collectors that stop early -/

/-- A collector with its limits. -/
inductive BoundedCollector
  /-- The binding forms among so many nodes around the cursor. -/
  | lexical (maxDepth : Nat)
  /-- The definitions among so many top-level forms of the file. -/
  | sibling (maxForms : Nat)
  /-- The definitions of so many files, at most so many of each. -/
  | project (summaries : List Summary) (maxFiles maxPerFile : Nat)

/-- The collector with the limits of the settings. -/
def BoundedCollector.ofConfig (config : Config) (summaries : List Summary) :
    Collector → BoundedCollector
  | .lexical => lexical config.maxTraversalDepth
  | .sibling => sibling config.maxSiblingDefinitions
  | .project => project summaries config.maxProjectFiles config.maxDefinitionsPerFile

/-- The binding that a definition of the file makes in other files. -/
def Summary.bindingOf (f : Summary) (d : Definition) : Binding :=
  { name := d.name, kind := .projectDef d.kind, depth := .global, file := some f.stem,
    signature := d.signature }

namespace Tree

variable (t : Tree) (cursor : Location) (offset : Nat)

/-- The scope with the local names of the nodes at the given locations, `depth` functions being
    passed already. -/
def fillAlong (s : Scope) : (depth : Nat) → List Location → Scope
  | _, [] => s
  | depth, l :: ls =>
    if s.isFull then s
    else if !l.node.kind.isCall || t.isInert l then fillAlong s depth ls
    else
      fillAlong ((t.bindingsAt cursor offset depth l).foldl Scope.insert s)
        (if (t.head? l.node).any (·.isScopeRoot) then depth + 1 else depth) ls

/-- The scope with the definitions among top-level forms, each of which is given with whether it
    is deactivated. -/
def fillAmong (s : Scope) : List (Node × Bool) → Scope
  | [] => s
  | (n, off) :: forms =>
    if s.isFull then s
    else
      match if n.kind.isCall && !off then t.siblingBinding? cursor n else none with
      | some b => fillAmong (s.insert b) forms
      | none => fillAmong s forms

/-- The scope with what a collector adds to it. -/
def collectInto (s : Scope) : BoundedCollector → Scope
  | .lexical maxDepth => t.fillAlong cursor offset s 0 (cursor.ancestors.take maxDepth)
  | .sibling maxForms => t.fillAmong cursor s (t.root.judgedForms.take maxForms)
  | .project summaries maxFiles maxPerFile =>
    s.fillFiles ((summaries.take maxFiles).map fun f =>
      (f.definitions.take maxPerFile).map f.bindingOf)

/-- The scope with what collectors add to it, none of which starts when the scope is full. -/
def fill (s : Scope) : List BoundedCollector → Scope
  | [] => s
  | k :: ks => if s.isFull then s else fill (t.collectInto cursor offset s k) ks

/-- The scope that collectors fill for a cursor. -/
def gather (limit : Option Nat) (ks : List BoundedCollector) : Scope :=
  t.fill cursor offset (.empty limit) ks

/-- The bindings that a collector finds if the scope has room for all of them. -/
def found : BoundedCollector → List Binding
  | .lexical maxDepth => t.lexicalBindings maxDepth cursor offset
  | .sibling maxForms => t.siblingBindings maxForms cursor
  | .project summaries maxFiles maxPerFile => projectBindings maxFiles maxPerFile summaries

variable {t cursor offset}

theorem fillAlong_eq (s : Scope) (depth : Nat) (ls : List Location) :
    t.fillAlong cursor offset s depth ls =
      (t.bindingsAlong cursor offset depth ls).foldl Scope.insert s := by
  induction ls generalizing s depth with
  | nil => rfl
  | cons l ls ih =>
    rw [fillAlong, bindingsAlong]
    by_cases hfull : s.isFull = true
    · rw [if_pos hfull, Scope.foldl_insert_of_isFull hfull]
    rw [if_neg hfull]
    split
    · exact ih s depth
    · rw [List.foldl_append]
      exact ih _ _

theorem fillAmong_eq (s : Scope) (forms : List (Node × Bool)) :
    t.fillAmong cursor s forms =
      (forms.filterMap fun (n, off) =>
        if n.kind.isCall && !off then t.siblingBinding? cursor n else none).foldl
          Scope.insert s := by
  induction forms generalizing s with
  | nil => rfl
  | cons form forms ih =>
    obtain ⟨n, off⟩ := form
    rw [fillAmong, List.filterMap_cons]
    by_cases hfull : s.isFull = true
    · rw [if_pos hfull, Scope.foldl_insert_of_isFull hfull]
    rw [if_neg hfull]
    dsimp only
    cases (if n.kind.isCall && !off then t.siblingBinding? cursor n else none) with
    | some b => exact ih (s.insert b)
    | none => exact ih s

/-- A collector adds all that it finds, though it may stop before. -/
theorem collectInto_eq (s : Scope) (k : BoundedCollector) :
    t.collectInto cursor offset s k = (t.found cursor offset k).foldl Scope.insert s := by
  cases k with
  | lexical maxDepth => exact fillAlong_eq s 0 _
  | sibling maxForms => exact fillAmong_eq s _
  | project summaries maxFiles maxPerFile =>
    rw [collectInto, Scope.fillFiles_eq, ← List.flatMap_def]
    rfl

theorem fill_eq (s : Scope) (ks : List BoundedCollector) :
    t.fill cursor offset s ks = (ks.flatMap (t.found cursor offset)).foldl Scope.insert s := by
  induction ks generalizing s with
  | nil => rfl
  | cons k ks ih =>
    rw [fill]
    split
    · next hfull => exact (Scope.foldl_insert_of_isFull hfull _).symm
    · rw [ih, collectInto_eq, List.flatMap_cons, List.foldl_append]

/-- Collectors fill the scope of all that they find, wherever they stop. -/
theorem gather_eq (limit : Option Nat) (ks : List BoundedCollector) :
    t.gather cursor offset limit ks = .ofList limit (ks.flatMap (t.found cursor offset)) :=
  fill_eq _ ks

theorem resolve_eq_gather (t : Tree) (config : Config) (c : Cursor) (summaries : List Summary)
    (ks : List Collector) :
    t.resolve config c summaries ks = t.gather c.location c.offset (some config.maxBindings)
      (ks.map (.ofConfig config summaries)) := by
  have hfound : t.found c.location c.offset ∘ .ofConfig config summaries =
      t.collect config c summaries := by
    funext k
    cases k <;> rfl
  rw [gather_eq, List.flatMap_map, resolve]
  exact congrArg (fun f => Scope.ofList _ (ks.flatMap f)) hfound.symm

end Tree

/-! ### Limits cut off -/

namespace Scope

variable {s u : Scope} {n : Nat}

/-- The scope `s` has the limit `n` and the first `n` bindings of the scope `u`, which has no
    limit. -/
structure IsCut (n : Nat) (s u : Scope) : Prop where
  limit_eq : s.limit = some n
  limit_eq_none : u.limit = none
  bindings_eq : s.bindings = u.bindings.take n

theorem IsCut.isFull_iff (h : IsCut n s u) : s.isFull = true ↔ n ≤ u.bindings.length := by
  rw [isFull, h.limit_eq, h.bindings_eq, Option.any_some, decide_eq_true_eq, List.length_take,
    Nat.le_min]
  exact and_iff_right (Nat.le_refl n)

/-- As long as the limit is not reached, both scopes are the same. -/
theorem IsCut.bindings_eq_of_not_isFull (h : IsCut n s u) (hfull : ¬s.isFull = true) :
    s.bindings = u.bindings := by
  rw [h.isFull_iff, Nat.not_le] at hfull
  rw [h.bindings_eq, List.take_of_length_le (Nat.le_of_lt hfull)]

theorem IsCut.insert (h : IsCut n s u) (b : Binding) : IsCut n (s.insert b) (u.insert b) := by
  refine ⟨(s.limit_insert b).trans h.limit_eq, (u.limit_insert b).trans h.limit_eq_none, ?_⟩
  rw [insert_eq h.limit_eq_none]
  by_cases hfull : s.isFull = true
  · -- what the other scope takes lies behind the limit
    rw [insert_of_isFull hfull, h.bindings_eq]
    split
    · rfl
    · rw [List.take_append_of_le_length (h.isFull_iff.1 hfull)]
  · have hsame := h.bindings_eq_of_not_isFull hfull
    have hcontains : s.contains b.name = u.contains b.name := by rw [contains, contains, hsame]
    rw [h.isFull_iff, Nat.not_le] at hfull
    have hadmits : s.admits b = !u.contains b.name := by
      rw [admits, hcontains, Bool.eq_false_iff.2 (mt h.isFull_iff.1 (Nat.not_le.2 hfull))]
      rfl
    rw [Scope.insert, hadmits]
    cases u.contains b.name with
    | true => exact h.bindings_eq
    | false =>
      change s.bindings ++ [b] = (u.bindings ++ [b]).take n
      rw [hsame, List.take_of_length_le (by simpa using Nat.succ_le_of_lt hfull)]

theorem IsCut.foldl_insert (h : IsCut n s u) (bs : List Binding) :
    IsCut n (bs.foldl Scope.insert s) (bs.foldl Scope.insert u) := by
  induction bs generalizing s u with
  | nil => exact h
  | cons b bs ih => exact ih (h.insert b)

/-- A scope with a limit has the first bindings of the scope without. -/
theorem bindings_ofList_some (n : Nat) (bs : List Binding) :
    (ofList (some n) bs).bindings = (ofList none bs).bindings.take n :=
  (IsCut.foldl_insert ⟨rfl, rfl, List.take_nil.symm⟩ bs).bindings_eq

theorem nodup_names_ofList_some (n : Nat) (bs : List Binding) :
    ((ofList (some n) bs).bindings.map (·.name)).Nodup := by
  rw [bindings_ofList_some]
  exact (nodup_names_ofList bs).sublist ((List.take_sublist _ _).map _)

theorem isPrefix_bindings_insert (s : Scope) (b : Binding) :
    s.bindings <+: (s.insert b).bindings := by
  rw [insert]
  split
  · exact List.prefix_append _ _
  · exact List.prefix_rfl

theorem isPrefix_bindings_foldl_insert (s : Scope) (bs : List Binding) :
    s.bindings <+: (bs.foldl insert s).bindings := by
  induction bs generalizing s with
  | nil => exact List.prefix_rfl
  | cons b bs ih => exact (s.isPrefix_bindings_insert b).trans (ih (s.insert b))

theorem isPrefix_bindings_ofList {bs bs' : List Binding} (h : bs <+: bs') (limit : Option Nat) :
    (ofList limit bs).bindings <+: (ofList limit bs').bindings := by
  obtain ⟨rest, rfl⟩ := h
  rw [ofList, ofList, List.foldl_append]
  exact isPrefix_bindings_foldl_insert _ rest

theorem bindings_insert_sublist (s : Scope) (b : Binding) :
    (s.insert b).bindings.Sublist (s.bindings ++ [b]) := by
  rw [insert]
  split
  · exact List.Sublist.refl _
  · exact List.sublist_append_left _ _

theorem bindings_foldl_insert_sublist (s : Scope) (bs : List Binding) :
    (bs.foldl insert s).bindings.Sublist (s.bindings ++ bs) := by
  induction bs generalizing s with
  | nil => rw [List.append_nil]; exact List.Sublist.refl _
  | cons b bs ih =>
    rw [List.append_cons]
    exact (ih (s.insert b)).trans ((s.bindings_insert_sublist b).append_right bs)

/-- A scope has its bindings in the order in which they were found. -/
theorem bindings_ofList_sublist (limit : Option Nat) (bs : List Binding) :
    (ofList limit bs).bindings.Sublist bs :=
  bindings_foldl_insert_sublist _ bs

end Scope

/-- The two collectors differ by a limit only, which is smaller in the first: how many nodes
    around the cursor, forms of the file or files of the project they look at. -/
inductive BoundedCollector.Narrower : BoundedCollector → BoundedCollector → Prop
  | lexical {m n : Nat} : m ≤ n → Narrower (.lexical m) (.lexical n)
  | sibling {m n : Nat} : m ≤ n → Narrower (.sibling m) (.sibling n)
  | project {summaries : List Summary} {m n maxPerFile : Nat} : m ≤ n →
    Narrower (.project summaries m maxPerFile) (.project summaries n maxPerFile)

namespace Tree

variable {t : Tree} {cursor : Location} {offset : Nat}

theorem isPrefix_bindingsAlong {ls ls' : List Location} (h : ls <+: ls') (depth : Nat) :
    t.bindingsAlong cursor offset depth ls <+: t.bindingsAlong cursor offset depth ls' := by
  induction ls generalizing ls' depth with
  | nil => exact List.nil_prefix
  | cons l ls ih =>
    obtain ⟨ls', rfl, hls⟩ := List.cons_prefix_iff.1 h
    rw [bindingsAlong_cons, bindingsAlong_cons, List.prefix_append_right_inj]
    exact ih hls _

/-- A collector with a smaller limit finds the first of the same bindings. -/
theorem isPrefix_found {k k' : BoundedCollector} (h : k.Narrower k') :
    t.found cursor offset k <+: t.found cursor offset k' := by
  cases h with
  | lexical h => exact isPrefix_bindingsAlong (List.take_prefix_take_left h) 0
  | sibling h => exact (List.take_prefix_take_left h).filterMap _
  | project h => exact (List.take_prefix_take_left h).flatMap _

/-- Limits only cut off. A scope with a limit has the first of the bindings that the same
    collectors, with limits of their own, leave in a scope without, and so has the scope that is
    resolved for a cursor. A single collector with a smaller limit of its own finds the first of
    the bindings that it finds with a larger one. -/
theorem gather_truncates (t : Tree) (cursor : Location) (offset : Nat) :
    (∀ n ks, (t.gather cursor offset (some n) ks).bindings =
      (t.gather cursor offset none ks).bindings.take n) ∧
    (∀ config c summaries ks, (t.resolve config c summaries ks).bindings =
      (t.gather c.location c.offset none (ks.map (.ofConfig config summaries))).bindings.take
        config.maxBindings) ∧
    ∀ k k', BoundedCollector.Narrower k k' →
      (t.gather cursor offset none [k]).bindings <+: (t.gather cursor offset none [k']).bindings := by
  have hcut : ∀ cursor offset n ks, (t.gather cursor offset (some n) ks).bindings =
      (t.gather cursor offset none ks).bindings.take n := by
    intro cursor offset n ks
    rw [gather_eq, gather_eq, Scope.bindings_ofList_some]
  refine ⟨hcut cursor offset, fun config c summaries ks => ?_, fun k k' h => ?_⟩
  · rw [resolve_eq_gather, hcut]
  · rw [gather_eq, gather_eq, List.flatMap_singleton, List.flatMap_singleton]
    exact Scope.isPrefix_bindings_ofList (isPrefix_found h) none

/-- The parameter `x` and the definition of `y` are shadowed, so that the fourth binding is that of
    the function around the cursor. -/
theorem gather_truncates_shadowed :
    let t := Tree.read "(defn f [x y] (let [x 1 z 2] (g z))) (def y 3) (def w 4)".toList
    let ks := [.lexical 20, .sibling 50]
    ∃ cursor ∈ t.locations, t.text cursor.node = "g" ∧
      (t.gather cursor 31 none ks).bindings.map (·.name) = ["x", "z", "y", "f", "w"] ∧
      (t.gather cursor 31 (some 4) ks).bindings = (t.gather cursor 31 none ks).bindings.take 4 ∧
      BoundedCollector.Narrower (.lexical 2) (.lexical 20) ∧
      (t.gather cursor 31 none [.lexical 2]).bindings.map (·.name) = ["x", "z"] ∧
      (t.gather cursor 31 none [.lexical 2]).bindings <+:
        (t.gather cursor 31 none [.lexical 20]).bindings := by
  intro t ks
  obtain ⟨cursor, hcursor, htext, hall, hinner⟩ : ∃ cursor ∈ t.locations,
      t.text cursor.node = "g" ∧
      (t.gather cursor 31 none ks).bindings.map (·.name) = ["x", "z", "y", "f", "w"] ∧
      (t.gather cursor 31 none [.lexical 2]).bindings.map (·.name) = ["x", "z"] := by
    decide +kernel
  have hnarrower : BoundedCollector.Narrower (.lexical 2) (.lexical 20) := .lexical (by decide)
  obtain ⟨hcut, -, hprefix⟩ := gather_truncates t cursor 31
  exact ⟨cursor, hcursor, htext, hall, hcut 4 ks, hnarrower, hinner, hprefix _ _ hnarrower⟩

end Tree

/-! ### The order of a scope -/

/-- Which part of a scope names of a kind belong to: first the local names, then the definitions
    of the file, then those of the project. -/
def BindingKind.layer : BindingKind → Nat
  | localDef _ | selfRef _ => 1
  | projectDef _ => 2
  | _ => 0

/-- A name is introduced no further outside than another one. -/
def Depth.le : Depth → Depth → Prop
  | within m, within n => m ≤ n
  | global, within _ => False
  | _, global => True

instance : LE Depth := ⟨Depth.le⟩

theorem Depth.le_global (d : Depth) : d ≤ global := by
  cases d <;> exact trivial

theorem BindingKind.layer_eq_zero_iff {kind : BindingKind} :
    kind.layer = 0 ↔ kind.isLocal = true := by
  cases kind <;> simp [layer, isLocal]

/-- The scope binds no name twice, holds no more bindings than `limit`, and has the local names
    before the definitions of the file, these before the definitions of the project, and what is
    nearer before what is further outside. -/
structure Scope.Layered (s : Scope) (limit : Nat) : Prop where
  nodup_names : (s.bindings.map (·.name)).Nodup
  length_le : s.bindings.length ≤ limit
  layers : s.bindings.Pairwise fun b b' => b.kind.layer ≤ b'.kind.layer
  depths : s.bindings.Pairwise fun b b' => b.depth ≤ b'.depth

namespace Tree

variable {t : Tree} {cursor : Location} {offset depth : Nat} {b : Binding}

theorem kind_of_mem_vectorClauses {n : Node} {kind : BindingKind}
    {clauses : List Node → List Clause} {x : BindingKind × Clause}
    (hx : x ∈ headClauses.vectorClauses n kind clauses) : x.1 = kind := by
  rw [headClauses.vectorClauses] at hx
  split at hx
  · obtain ⟨_, -, rfl⟩ := List.mem_map.1 hx
    rfl
  · exact absurd hx List.not_mem_nil

theorem isLocal_of_mem_headClauses {n : Node} {h : Head} {x : BindingKind × Clause}
    (hx : x ∈ t.headClauses n h) : x.1.isLocal = true := by
  have hvector : ∀ kind clauses, kind.isLocal = true →
      x ∈ headClauses.vectorClauses n kind clauses → x.1.isLocal = true :=
    fun kind clauses hkind hx => kind_of_mem_vectorClauses hx ▸ hkind
  have hslot : ∀ (kind : BindingKind) (o : Option Node), kind.isLocal = true →
      x ∈ (o.map fun p => (kind, Clause.atEnd p)).toList → x.1.isLocal = true := by
    intro kind o hkind hx
    rw [Option.mem_toList, Option.map_eq_some_iff] at hx
    obtain ⟨_, -, rfl⟩ := hx
    exact hkind
  cases h
  case lambda | fnDef | fnDefPrivate | macroDef | macroDefPrivate | catchIn =>
    exact hslot _ _ rfl hx
  case letIn | bindingIn | loopIn | forIn | doFor | forEach => exact hvector _ _ rfl hx
  case ifLet | whenLet => exact hvector _ (fun forms => (Clause.ofPairs forms).take 1) rfl hx
  all_goals exact absurd hx List.not_mem_nil

theorem isLocal_of_mem_clausesAt {l : Location} {x : BindingKind × Clause}
    (hx : x ∈ t.clausesAt l) : x.1.isLocal = true := by
  rw [clausesAt.eq_def] at hx
  split at hx
  · exact absurd hx List.not_mem_nil
  split at hx
  · split at hx
    · rw [List.mem_singleton.1 hx]
      rfl
    · exact absurd hx List.not_mem_nil
  · cases hhead : t.head? l.node with
    | none =>
      rw [hhead] at hx
      exact absurd hx List.not_mem_nil
    | some h =>
      rw [hhead] at hx
      exact isLocal_of_mem_headClauses hx

theorem of_mem_bindingsAlong {ls : List Location}
    (hb : b ∈ t.bindingsAlong cursor offset depth ls) :
    b.kind.layer = 0 ∧ ∃ n, depth ≤ n ∧ b.depth = .within n := by
  induction ls generalizing depth with
  | nil => exact absurd hb List.not_mem_nil
  | cons l ls ih =>
    rw [bindingsAlong_cons, List.mem_append] at hb
    rcases hb with hb | hb
    · split at hb
      · obtain ⟨clause, s, hclause, -, -, -, -, hb⟩ := mem_bindingsAt_iff.1 hb
        exact ⟨BindingKind.layer_eq_zero_iff.2 (isLocal_of_mem_clausesAt hclause), depth,
          Nat.le_refl _, congrArg Binding.depth hb⟩
      · exact absurd hb List.not_mem_nil
    · obtain ⟨hlayer, n, hle, hdepth⟩ := ih hb
      exact ⟨hlayer, n, Nat.le_of_add_right_le hle, hdepth⟩

/-- On the way out of the forms around the cursor no name is nearer than one before. -/
theorem pairwise_depth_bindingsAlong (ls : List Location) :
    (t.bindingsAlong cursor offset depth ls).Pairwise fun b b' => b.depth ≤ b'.depth := by
  induction ls generalizing depth with
  | nil => exact .nil
  | cons l ls ih =>
    have hhere : ∀ b ∈ (if t.isLive l then t.bindingsAt cursor offset depth l else []),
        b.depth = .within depth := by
      intro b hb
      split at hb
      · obtain ⟨_, _, -, -, -, -, -, hb⟩ := mem_bindingsAt_iff.1 hb
        exact congrArg Binding.depth hb
      · exact absurd hb List.not_mem_nil
    rw [bindingsAlong_cons, List.pairwise_append]
    refine ⟨List.pairwise_of_forall_mem_list fun b hb b' hb' => ?_, ih, fun b hb b' hb' => ?_⟩
    · rw [hhere b hb, hhere b' hb']
      exact Nat.le_refl depth
    · obtain ⟨-, n, hle, hdepth⟩ := of_mem_bindingsAlong hb'
      rw [hhere b hb, hdepth]
      exact Nat.le_of_add_right_le hle

theorem of_mem_siblingBindings {maxForms : Nat} (hb : b ∈ t.siblingBindings maxForms cursor) :
    b.kind.layer = 1 ∧ b.depth = .global := by
  obtain ⟨⟨n, off⟩, -, hb⟩ := List.mem_filterMap.1 hb
  dsimp only at hb
  split at hb
  · simp only [siblingBinding?, Option.bind_eq_bind, Option.bind_eq_some_iff] at hb
    obtain ⟨h, -, kind, -, slot, -, hb⟩ := hb
    split at hb
    · cases hb
    · obtain rfl := Option.some.inj hb
      dsimp only
      split <;> exact ⟨rfl, rfl⟩
  · cases hb

theorem of_mem_projectBindings {maxFiles maxPerFile : Nat} {summaries : List Summary}
    (hb : b ∈ projectBindings maxFiles maxPerFile summaries) :
    b.kind.layer = 2 ∧ b.depth = .global := by
  obtain ⟨f, -, hb⟩ := List.mem_flatMap.1 hb
  obtain ⟨d, -, rfl⟩ := List.mem_map.1 hb
  exact ⟨rfl, rfl⟩

/-- What the three collectors find in turn is in order. -/
theorem pairwise_found (t : Tree) (cursor : Location) (offset maxDepth maxForms : Nat)
    (summaries : List Summary) (maxFiles maxPerFile : Nat) :
    ([.lexical maxDepth, .sibling maxForms, .project summaries maxFiles maxPerFile].flatMap
      (t.found cursor offset)).Pairwise fun b b' =>
        b.kind.layer ≤ b'.kind.layer ∧ b.depth ≤ b'.depth := by
  have hlexical : ∀ b ∈ t.lexicalBindings maxDepth cursor offset, b.kind.layer = 0 :=
    fun b hb => (of_mem_bindingsAlong hb).1
  have hsibling : ∀ b ∈ t.siblingBindings maxForms cursor, b.kind.layer = 1 ∧ b.depth = .global :=
    fun b hb => of_mem_siblingBindings hb
  have hproject : ∀ b ∈ projectBindings maxFiles maxPerFile summaries,
      b.kind.layer = 2 ∧ b.depth = .global := fun b hb => of_mem_projectBindings hb
  -- a definition may follow whatever is in its own layer or in one before
  have hglobal : ∀ b b' : Binding, b.kind.layer ≤ b'.kind.layer → b'.depth = .global →
      b.kind.layer ≤ b'.kind.layer ∧ b.depth ≤ b'.depth :=
    fun b b' hle hb' => ⟨hle, hb' ▸ b.depth.le_global⟩
  rw [List.flatMap_cons, List.flatMap_cons, List.flatMap_singleton, List.pairwise_append,
    List.pairwise_append]
  refine ⟨?_, ⟨?_, ?_, fun b hb b' hb' => ?_⟩, fun b hb b' hb' => ?_⟩
  · refine (pairwise_depth_bindingsAlong _).imp_of_mem fun {b b'} hb hb' hdepth => ⟨?_, hdepth⟩
    rw [hlexical b hb, hlexical b' hb']
  · exact List.pairwise_of_forall_mem_list fun b hb b' hb' =>
      hglobal b b' (by rw [(hsibling b hb).1, (hsibling b' hb').1]) (hsibling b' hb').2
  · exact List.pairwise_of_forall_mem_list fun b hb b' hb' =>
      hglobal b b' (by rw [(hproject b hb).1, (hproject b' hb').1]) (hproject b' hb').2
  · refine hglobal b b' ?_ (hproject b' hb').2
    rw [(hsibling b hb).1, (hproject b' hb').1]
    exact Nat.le_succ 1
  · have hb' : b'.depth = .global := by
      rcases List.mem_append.1 hb' with hb' | hb'
      · exact (hsibling b' hb').2
      · exact (hproject b' hb').2
    exact hglobal b b' (by rw [hlexical b hb]; exact Nat.zero_le _) hb'

/-- The scope at a cursor is what the three collectors leave, each of which stops at a full scope.
    Whatever they find, it binds no name twice, holds no more bindings than the settings allow,
    and lists the local names, the definitions of the file and those of the project in this order,
    what is nearer first. -/
theorem scopeAt_layered (t : Tree) (config : Config) (c : Cursor) (summaries : List Summary) :
    t.scopeAt config c summaries =
        t.gather c.location c.offset (some config.maxBindings)
          [.lexical config.maxTraversalDepth, .sibling config.maxSiblingDefinitions,
           .project summaries config.maxProjectFiles config.maxDefinitionsPerFile] ∧
      (t.scopeAt config c summaries).Layered config.maxBindings := by
  have hgather := t.resolve_eq_gather config c summaries [.lexical, .sibling, .project]
  refine ⟨hgather, ?_⟩
  have hordered := (t.pairwise_found c.location c.offset config.maxTraversalDepth
    config.maxSiblingDefinitions summaries config.maxProjectFiles
    config.maxDefinitionsPerFile).sublist
      (Scope.bindings_ofList_sublist (some config.maxBindings) _)
  rw [scopeAt, hgather, gather_eq]
  refine ⟨Scope.nodup_names_ofList_some _ _, ?_, hordered.imp And.left, hordered.imp And.right⟩
  rw [Scope.bindings_ofList_some]
  exact List.length_take_le _ _

end Tree

end Typeahead
