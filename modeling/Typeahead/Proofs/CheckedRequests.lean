import Typeahead.Proofs.Answers
import Typeahead.Proofs.CheckedScope
import Typeahead.Proofs.CheckedSlots

/-!
# Checked requests

A request finds the node at the cursor, its slot, what the files of the project contribute
and what can be typed there. Every operation on texts, lists and numbers that it makes on
the way is in range, whatever the text or the tree, the cursor, the settings and the cache
are. Only the project can keep it from its answer, by breaking down.

* `descend_eq`: going down from child to child ends at the node at an offset;
* `summariesOf_eq`, `summaries_eq`: the files of a project are read without fail, unless
  the project breaks down;
* `complete_eq`: the answer for a cursor is found;
* `requests_eq`: so is the answer to a request of any kind.
-/

namespace Typeahead.Checked

/-! ### The node at an offset -/

section Find

variable (t : Tree)

/-- Whether a cursor at `offset` is inside a node. -/
def isAround (n : Node) (offset : Nat) : Option Bool := do
  let isClosed ← isClosed t n
  return if n.kind.isNested then
    n.span.start < offset && (n.span.contains offset || (!isClosed && n.span.stop == offset))
  else n.span.contains offset

/-- A node with whether a cursor at `offset` is inside of it. -/
def withAround (offset : Nat) (n : Node) : Option (Node × Bool) := return (n, ← isAround t n offset)

/-- The child of a node where the search for a cursor at `offset` goes on: the first word that
    it touches, or else the first child around it. -/
def childAt (n : Node) (offset : Nat) : Option (Option Node) := do
  let cs ← children t n
  let judged ← cs.mapM (withAround t offset)
  return (cs.find? fun c => c.kind.isWord && c.span.touches offset) <|>
    (judged.find? (·.2)).map Prod.fst

/-- The node that the search for a cursor at `offset` ends at when it starts at a node, with
    no more than `fuel` nodes on its way. -/
def descend (offset : Nat) : (fuel : Nat) → Node → Option Node
  | 0, _ => none
  | fuel + 1, n => do
    match ← childAt t n offset with
    | none => return n
    | some c => if c.kind.isNested then descend offset fuel c else return c

end Find

/-- The cursor at a given offset of a tree. -/
def locate (t : Tree) (config : Config) (offset : Nat) : Option (Except RequestError Cursor) :=
  if isBoundary t.source offset ∧ offset ≤ t.length then do
    let n ← descend t offset t.nodes.length t.root
    return .ok (Cursor.ofLocation t config (← get t n) offset)
  else return .error (.offsetOutOfBounds offset t.length)

/-- The tree of a text with the placeholder put in at `offset`, and the cursor there. -/
def inSource (config : Config) (cs : List Char) (offset : Nat) :
    Option (Except RequestError (Tree × Cursor)) := do
  match ← insertAt cs offset config.placeholder.toList with
  | .error err => return .error err
  | .ok text =>
    let t ← read text
    return (← locate t config offset).map (t, ·)

/-- The search goes on in a child, or else ends. -/
theorem findAt_eq (offset : Nat) (above : List Node) (n : Node) :
    n.findAt offset above =
      match (n.children.find? fun c => c.kind.isWord && c.span.touches offset) <|>
        n.children.find? (·.isAround offset) with
      | none => ⟨n, above⟩
      | some c => if c.kind.isNested then c.findAt offset (n :: above) else ⟨c, n :: above⟩ := by
  have haround (ns : List Node) (above : List Node) : Node.findAround? offset above ns =
      (ns.find? (·.isAround offset)).map fun c =>
        if c.kind.isNested then c.findAt offset above else ⟨c, above⟩ := by
    induction ns with
    | nil => rfl
    | cons c ns ih =>
      rw [Node.findAround?, List.find?_cons]
      cases c.isAround offset with
      | true => rfl
      | false => exact ih
  obtain ⟨id, kind, span, ns⟩ := n
  rw [Node.findAt, haround]
  cases hword : ns.find? fun c => c.kind.isWord && c.span.touches offset with
  | some w =>
    -- a word has no parts where the search could go on
    have hw : w.kind.isNested = false := by
      have h := List.find?_some hword
      rw [Bool.and_eq_true] at h
      refine Bool.eq_false_iff.2 fun hnested => ?_
      rw [Kind.isWord_eq_false (.inr hnested)] at h
      cases h.1
    simp [hw]
  | none =>
    cases ns.find? (·.isAround offset) <;> rfl

/-- A child has fewer nodes below it than its parent. -/
theorem length_preorder_lt {c n : Node} (hc : c ∈ n.children) :
    c.preorder.length < n.preorder.length := by
  have hmem := (Node.sublist_preorderAll n.children).subset hc
  have hle := (Node.preorderAll_sublist_of_mem _ hmem).length_le
  rw [n.preorder_eq, List.length_cons]
  exact Nat.lt_succ_of_le hle

section Find

variable {t : Tree} (ht : t.InOrder)
include ht

theorem isAround_eq {n : Node} (hn : n ∈ t.nodes) (offset : Nat) :
    isAround t n offset = some (n.isAround offset) := by
  rw [isAround, isClosed_eq ht hn]
  rfl

theorem childAt_eq {n : Node} (hn : n ∈ t.nodes) (offset : Nat) :
    childAt t n offset =
      some ((n.children.find? fun c => c.kind.isWord && c.span.touches offset) <|>
        n.children.find? (·.isAround offset)) := by
  have hjudged : n.children.mapM (withAround t offset) =
      some (n.children.map fun c => (c, c.isAround offset)) := by
    refine mapM_eq_some fun c hc => ?_
    rw [withAround, isAround_eq ht (Tree.mem_nodes_of_mem_children hn hc)]
    rfl
  simp only [childAt, children_eq ht hn, hjudged, Option.bind_eq_bind, Option.bind_some,
    List.find?_map, Option.map_map]
  simp [Function.comp_def]

/-- The nodes on the way have fewer and fewer nodes below them, so that the search ends. -/
theorem descend_eq {n : Node} (hn : n ∈ t.nodes) (offset : Nat) (above : List Node) {fuel : Nat}
    (hfuel : n.preorder.length ≤ fuel) :
    descend t offset fuel n = some (n.findAt offset above).node := by
  induction fuel generalizing n above with
  | zero =>
    -- a node is one of the nodes below it
    rw [n.preorder_eq, List.length_cons] at hfuel
    omega
  | succ fuel ih =>
    rw [descend, childAt_eq ht hn, findAt_eq]
    cases hchild : (n.children.find? fun c => c.kind.isWord && c.span.touches offset) <|>
        n.children.find? (·.isAround offset) with
    | none => rfl
    | some c =>
      have hc : c ∈ n.children := by
        rw [Option.orElse_eq_orElse, Option.orElse_eq_or, Option.or_eq_some_iff] at hchild
        rcases hchild with h | ⟨-, h⟩ <;> exact List.mem_of_find?_eq_some h
      have hlt := length_preorder_lt hc
      simp only [Option.bind_eq_bind, Option.bind_some]
      split
      · exact ih (Tree.mem_nodes_of_mem_children hn hc) _ (by omega)
      · rfl

theorem locate_eq (config : Config) (offset : Nat) :
    locate t config offset = some (Cursor.locate t config offset) := by
  have hdescend := descend_eq ht t.root.mem_preorder_self offset [] (Nat.le_refl _)
  have hget := get_eq ht (t.root.findAt_path offset []).1
  rw [locate, Cursor.locate, Tree.findAt?]
  by_cases hboundary : isBoundary t.source offset = true
  · by_cases hle : offset ≤ t.length
    · rw [if_pos ⟨hboundary, hle⟩, if_pos hboundary, if_pos hle]
      simp only [Tree.nodes, hdescend, hget, Option.bind_eq_bind, Option.bind_some]
      rfl
    · rw [if_neg fun h => hle h.2, if_pos hboundary, if_neg hle]
      rfl
  · rw [if_neg fun h => hboundary h.1, if_neg hboundary]
    rfl

end Find

theorem inSource_eq (config : Config) (cs : List Char) (offset : Nat) :
    inSource config cs offset = some (Cursor.inSource config cs offset) := by
  rw [inSource, insertAt_eq, Cursor.inSource]
  cases Typeahead.insertAt cs offset config.placeholder.toList with
  | error err => rfl
  | ok text =>
    simp only [Option.bind_eq_bind, Option.bind_some, read_eq,
      locate_eq (Builder.inOrder_read text)]
    cases hlocate : Cursor.locate (Tree.read text) config offset with
    | error err => simp [Except.map, bind, Except.bind, hlocate]
    | ok c => simp [Except.map, bind, Except.bind, pure, Except.pure, hlocate]

/-- A cursor that is found in a tree is at one of its nodes. -/
theorem mem_locations_of_locate_eq_ok {t : Tree} {config : Config} {offset : Nat} {c : Cursor}
    (h : Cursor.locate t config offset = .ok c) : c.location ∈ t.locations := by
  rw [Cursor.locate, Tree.findAt?] at h
  by_cases hboundary : isBoundary t.source offset = true
  · rw [if_pos hboundary] at h
    by_cases hle : offset ≤ t.length
    · rw [if_pos hle] at h
      cases h
      exact (t.root.findAt_path offset []).1
    · rw [if_neg hle] at h
      cases h
  · rw [if_neg hboundary] at h
    cases h

theorem inOrder_of_inSource_eq_ok {config : Config} {cs : List Char} {offset : Nat} {t : Tree}
    {c : Cursor} (h : Cursor.inSource config cs offset = .ok (t, c)) :
    t.InOrder ∧ c.location ∈ t.locations := by
  rw [Cursor.inSource] at h
  cases hinsert : Typeahead.insertAt cs offset config.placeholder.toList with
  | error err =>
    rw [hinsert] at h
    cases h
  | ok text =>
    rw [hinsert] at h
    change (Cursor.locate (Tree.read text) config offset >>= fun c => pure (Tree.read text, c)) =
      .ok (t, c) at h
    cases hlocate : Cursor.locate (Tree.read text) config offset with
    | error err =>
      rw [hlocate] at h
      cases h
    | ok c' =>
      rw [hlocate] at h
      cases h
      exact ⟨Builder.inOrder_read text, mem_locations_of_locate_eq_ok hlocate⟩

/-! ### Files of the project -/

/-- The summary of a file, which is made anew if the digest of its text has changed. -/
def summary (c : Cache) (path text : String) (maxText : Nat) : Option (Summary × Cache) :=
  match c.summaries.find? fun s => samePath s.summary.path path && s.digest == c.digest text with
  | some s => some (s.summary, c.hit)
  | none => do
    let s ← scan path text maxText
    let others := c.summaries.filter (!samePath ·.summary.path path)
    return (s, { c with misses := c.misses + 1, summaries := others ++ [⟨c.digest text, s⟩] })

/-- The summaries of the files at the given paths, unless the project breaks down. -/
def summariesOf (p : Project) (maxText : Nat) (excluded : Option String) (c : Cache) :
    List String → Option (List Summary × Cache)
  | [] => some ([], c)
  | path :: paths =>
    if excluded.any (samePath · path) then summariesOf p maxText excluded c paths
    else
      match p.read path with
      | .ok text => do
        let (s, c) ← summary c path text maxText
        let (ss, c) ← summariesOf p maxText excluded c paths
        return (s :: ss, c)
      | .error .unavailable => summariesOf p maxText excluded c paths
      | .error .breakdown => none

/-- The summaries of the files of a project, unless it breaks down. -/
def projectSummaries (c : Cache) (p : Project) (maxFiles maxText : Nat)
    (excluded : Option String) : Option (List Summary × Cache) :=
  match p.paths maxFiles with
  | .ok paths => summariesOf p maxText excluded c paths
  | .error .unavailable => some ([], c)
  | .error .breakdown => none

/-- The summaries of the files of the project of an engine, unless it breaks down. -/
def summaries (e : Engine) (cache : Cache) (currentFile : Option String) :
    Option (List Summary × Cache) :=
  match e.project with
  | some p => projectSummaries cache p e.config.maxProjectFiles e.config.maxFileText currentFile
  | none => some ([], cache)

theorem summary_eq (c : Cache) (path text : String) (maxText : Nat) :
    summary c path text maxText = some (c.summary path text maxText) := by
  rw [summary, Cache.summary, scan_eq]
  cases c.summaries.find? fun s => samePath s.summary.path path && s.digest == c.digest text <;> rfl

theorem summariesOf_eq (p : Project) (maxText : Nat) (excluded : Option String) (c : Cache)
    (paths : List String) :
    summariesOf p maxText excluded c paths =
      (Cache.summariesOf p maxText excluded c paths).1.map
        (·, (Cache.summariesOf p maxText excluded c paths).2) := by
  induction paths generalizing c with
  | nil => rfl
  | cons path paths ih =>
    rw [summariesOf, Cache.summariesOf]
    split
    · exact ih c
    cases p.read path with
    | ok text =>
      -- the rest is read with the cache that has the summary of this file
      simp only [summary_eq, ih, Option.bind_eq_bind, Option.bind_some]
      cases (Cache.summariesOf p maxText excluded (c.summary path text maxText).2 paths).1 <;> rfl
    | error err =>
      cases err with
      | unavailable => exact ih c
      | breakdown => rfl

/-- The files of a steady project are read without fail. -/
theorem summaries_eq {e : Engine} (he : ∀ p ∈ e.project, p.Steady) (cache : Cache)
    (currentFile : Option String) : ∃ found cache',
      e.summaries cache currentFile = (some found, cache') ∧
      summaries e cache currentFile = some (found, cache') := by
  have hmap : summaries e cache currentFile =
      (e.summaries cache currentFile).1.map (·, (e.summaries cache currentFile).2) := by
    rw [summaries, Engine.summaries]
    cases e.project with
    | none => rfl
    | some p =>
      simp only [projectSummaries, Cache.projectSummaries]
      cases p.paths e.config.maxProjectFiles with
      | ok paths => exact summariesOf_eq ..
      | error err => cases err <;> rfl
  obtain ⟨found, hfound⟩ := Option.isSome_iff_exists.1 (e.isSome_summaries he cache currentFile)
  refine ⟨found, _, Prod.ext hfound rfl, ?_⟩
  rw [hmap, hfound]
  rfl

/-! ### Answers -/

/-- The call shape that matters in a slot. -/
def slotSignature (e : Engine) (cache : Cache) (t : Tree) (c : Cursor) (slot : Slot)
    (summaries : List Summary) : Option (Option String × Cache) :=
  match slot with
  | .argument function _ =>
    return Engine.signatureOf cache function (← scopeAt t e.config c summaries) summaries
  | _ => return (none, cache)

/-- What can be typed in a clause of a namespace declaration, whose open clause is found. -/
def inClause (clause : NsClause) (before typed : List Char) (inProject : List String) :
    Option (List Candidate) := do
  let _ ← openClause before
  return Offer.inClause clause before typed inProject

/-- The candidates for an argument of a function, whose parameter is found. -/
def asArgument (s : Scope) (function : String) (index : Nat) (signature : Option String) :
    Option (List Candidate) := do
  let _ ← signature.toList.mapM (parameterAt · index)
  return Offer.asArgument s function index signature

/-- The candidates for a cursor. -/
def atCursor (t : Tree) (config : Config) (c : Cursor) (context : Context)
    (summaries : List Summary) (signature : Option String) : Option (List Candidate) := do
  match context.slot with
  | .inNamespace clause =>
    inClause clause (context.nsText.getD []) context.typed.toList (summaries.filterMap (·.nsName))
  | .keyword namespaced => return Offer.keywords namespaced (← keywordsAround t config c)
  | .operator => return Offer.asOperator (← scopeAt t config c summaries)
  | .argument function index =>
    asArgument (← scopeAt t config c summaries) function index signature
  | .expression => return Offer.asExpression (← scopeAt t config c summaries) context.head?
  | _ => return Offer.atCursor t config c context summaries signature

/-- The answer for a cursor in the file `currentFile`. There is no other answer to fall back
    on. -/
def complete (e : Engine) (cache : Cache) (t : Tree) (c : Cursor) (currentFile : Option String) :
    Option (List Candidate × Cache) := do
  let _ ← get t c.location.node
  let context ← contextOf t e.config c
  if Engine.isMute c context.slot then return ([], cache)
  else
    let (found, cache) ←
      if context.slot.needsProject then summaries e cache currentFile else some ([], cache)
    let (signature, cache) ← slotSignature e cache t c context.slot found
    let cs ← atCursor t e.config c context found signature
    return (e.answer cache context cs, cache)

/-- The answer for a place in a text, where the placeholder is put in. -/
def completeSource (e : Engine) (cache : Cache) (cs : List Char) (offset : Nat)
    (currentFile : Option String) : Option (Except RequestError (List Candidate × Cache)) := do
  match ← inSource e.config cs offset with
  | .error err => return .error err
  | .ok (t, c) => return .ok (← complete e cache t c currentFile)

/-- The answer for a position in a document, as items. -/
def completeAt (e : Engine) (cache : Cache) (cs : List Char) (p : Position) :
    Option (Except RequestError (List Item × Cache)) := do
  match ← toOffset p cs with
  | none => return .error (.positionOutOfBounds p)
  | some offset =>
    return (← completeSource e cache cs offset none).map fun x => (Candidate.toItems x.1, x.2)

section Answers

variable {t : Tree} (ht : t.InOrder) {c : Cursor} (hc : c.location ∈ t.locations)

theorem inClause_eq (clause : NsClause) (before typed : List Char) (inProject : List String) :
    inClause clause before typed inProject =
      some (Offer.inClause clause before typed inProject) := by
  rw [inClause, openClause_eq]
  rfl

theorem asArgument_eq (s : Scope) (function : String) (index : Nat) (signature : Option String) :
    asArgument s function index signature =
      some (Offer.asArgument s function index signature) := by
  rw [asArgument, mapM_eq_some fun shape _ => parameterAt_eq shape index]
  rfl

include ht hc

theorem slotSignature_eq (e : Engine) (cache : Cache) (slot : Slot) (summaries : List Summary) :
    slotSignature e cache t c slot summaries =
      some (e.slotSignature cache t c slot summaries) := by
  cases slot with
  | argument function index =>
    rw [slotSignature, scopeAt_eq ht hc]
    rfl
  | _ => rfl

theorem atCursor_eq (config : Config) (context : Context) (summaries : List Summary)
    (signature : Option String) :
    atCursor t config c context summaries signature =
      some (Offer.atCursor t config c context summaries signature) := by
  have hscope := scopeAt_eq ht hc config summaries
  rw [atCursor, Offer.atCursor]
  cases context.slot with
  | inNamespace clause => exact inClause_eq ..
  | keyword namespaced =>
    rw [keywordsAround_eq ht]
    rfl
  | operator =>
    rw [hscope]
    rfl
  | argument function index =>
    rw [hscope]
    exact asArgument_eq ..
  | expression =>
    rw [hscope]
    rfl
  | _ => rfl

variable {e : Engine} (he : ∀ p ∈ e.project, p.Steady)
include he

theorem complete_eq (cache : Cache) (currentFile : Option String) :
    complete e cache t c currentFile = some (e.complete cache t c currentFile) := by
  simp only [complete, get_eq ht hc, contextOf_eq e.config ht hc, slotSignature_eq ht hc,
    atCursor_eq ht hc, Option.bind_eq_bind, Option.bind_some, Engine.complete]
  generalize Context.ofCursor t e.config c = context
  split
  · rfl
  split
  · obtain ⟨found, cache', hmodel, hchecked⟩ := summaries_eq he cache currentFile
    rw [hmodel, hchecked]
    rfl
  · rfl

omit ht hc in
theorem completeSource_eq (cache : Cache) (cs : List Char) (offset : Nat)
    (currentFile : Option String) :
    completeSource e cache cs offset currentFile =
      some (e.completeSource cache cs offset currentFile) := by
  rw [completeSource, inSource_eq, Engine.completeSource]
  cases hsource : Cursor.inSource e.config cs offset with
  | error err => rfl
  | ok x =>
    obtain ⟨t, c⟩ := x
    obtain ⟨ht, hc⟩ := inOrder_of_inSource_eq_ok hsource
    simp only [Option.bind_eq_bind, Option.bind_some, complete_eq ht hc he]
    rfl

omit ht hc in
theorem completeAt_eq (cache : Cache) (cs : List Char) (p : Position) :
    completeAt e cache cs p = some (e.completeAt cache cs p) := by
  rw [completeAt, toOffset_eq, Engine.completeAt]
  cases p.toOffset? cs with
  | none => rfl
  | some offset =>
    simp only [Option.bind_eq_bind, Option.bind_some, completeSource_eq he]
    cases e.completeSource cache cs offset none <;> rfl

end Answers

/-- The tree was read from a text, or built by any steps over any source. -/
def IsMade (t : Tree) : Prop :=
  (∃ cs, t = Tree.read cs) ∨ ∃ source steps, t = Builder.build source steps

theorem IsMade.inOrder {t : Tree} (h : IsMade t) : t.InOrder := by
  rcases h with ⟨cs, rfl⟩ | ⟨source, steps, rfl⟩
  · exact Builder.inOrder_read cs
  · exact Builder.inOrder_build source steps

/-- No operation is out of range in reading a text, in building a tree, or in a request to an
    engine whose project does not break down: for any node of a tree as the cursor, with any
    offset, for any place in a text and for any position in a document. What comes out is
    what the engine answers, and it never falls back on the answer for when nothing is known
    about the cursor. -/
theorem requests_eq {e : Engine} (he : ∀ p ∈ e.project, p.Steady) (cache : Cache)
    (currentFile : Option String) :
    (∀ cs, read cs = some (Tree.read cs)) ∧
    (∀ source steps, build source steps = some (Builder.build source steps)) ∧
    (∀ t, IsMade t → ∀ c : Cursor, c.location ∈ t.locations →
      complete e cache t c currentFile = some (e.complete cache t c currentFile)) ∧
    (∀ cs offset, completeSource e cache cs offset currentFile =
      some (e.completeSource cache cs offset currentFile)) ∧
    ∀ cs p, completeAt e cache cs p = some (e.completeAt cache cs p) :=
  ⟨read_eq, build_eq, fun _ ht _ hc => complete_eq ht.inOrder hc he cache currentFile,
    fun cs offset => completeSource_eq he cache cs offset currentFile, completeAt_eq he cache⟩

/-- The cursor is a call whose parts overlap and end inside of a character or past the end of
    the source, its offset is far behind all of them, and the project has a file. -/
theorem requests_eq_overlapping :
    let d : Documents := { files := [⟨"b.phel", "(ns b) (defn é [x] #_"⟩] }
    let e : Engine := { Engine.new {} with project := some d.toProject }
    let t := Builder.build "(é ü".toList
      [.start .list 4, .token .openDelim ⟨3, 1⟩, .token .symbol ⟨1, 2⟩, .token .formComment ⟨2, 2⟩,
        .token .symbol ⟨0, 90⟩, .finish 1]
    let c : Cursor := ⟨⟨t.root.children.headD t.root, [t.root]⟩, 1000, "é"⟩
    d.broken = none ∧ c.location ∈ t.locations ∧
      complete e .standard t c (some "a.phel") =
        some (e.complete .standard t c (some "a.phel")) := by
  intro d e t c
  have he : ∀ p ∈ e.project, p.Steady := by
    intro p hp
    rw [← Option.some.inj hp]
    exact Documents.steady_toProject rfl
  have hc : c.location ∈ t.locations := List.mem_of_getElem? (i := 1) rfl
  obtain ⟨-, -, htrees, -⟩ := requests_eq he .standard (some "a.phel")
  exact ⟨rfl, hc, htrees t (.inr ⟨_, _, rfl⟩) c hc⟩

end Typeahead.Checked
