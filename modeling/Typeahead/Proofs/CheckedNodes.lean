import Typeahead.Proofs.CheckedReading
import Typeahead.Proofs.Ordinals
import Typeahead.Tree.Inert

/-!
# Checked access to nodes

A node is asked for its children and its parent by its number, under which the tree must
have it. What a marker deactivates is found from the index of a node among its siblings,
and the masked text of a vector by filling parts of a byte string.

* `children_eq`, `ancestors_eq`: the nodes of a tree are under their numbers;
* `isDeactivated_eq`, `activeForms_eq`: the active forms of a node are found;
* `isInert_eq`: so is whether a node is inert.
-/

namespace Typeahead.Checked

variable (t : Tree)

/-! ### Nodes -/

/-- The place of a node, which must be in the tree under its number. -/
def get (n : Node) : Option Location := t.locations[n.id]?

/-- The children of a node. -/
def children (n : Node) : Option (List Node) := do
  (← get t n).node.children.mapM fun c => return (← get t c).node

/-- The nodes around a node, innermost first. -/
def ancestors (n : Node) : Option (List Node) := do
  (← get t n).above.mapM fun a => return (← get t a).node

/-- The parent of a node, if it is not the root. -/
def parent (n : Node) : Option (Option Node) := return (← ancestors t n).head?

/-- The forms among the children of a node. -/
def forms (n : Node) : Option (List Node) := return (← children t n).filter (·.kind.isForm)

/-- Whether a node is `n` or lies below it. -/
def isWithin (cursor n : Node) : Option Bool := do
  return cursor.id == n.id || (← ancestors t cursor).any (·.id == n.id)

/-- Whether the last child is a closing delimiter. -/
def isClosed (n : Node) : Option Bool := do
  return (← children t n).getLast?.any (·.kind == .closeDelim)

section Nodes

variable {t} {l : Location} {n : Node}

theorem mem_nodes_of_mem_above (hl : l ∈ t.locations) : ∀ a ∈ l.above, a ∈ t.nodes := by
  intro a ha
  rw [← Location.map_node_chain l.above] at ha
  obtain ⟨p, hp, rfl⟩ := List.mem_map.1 ha
  exact Tree.mem_nodes_of_mem_locations
    (Tree.selfAndAncestors_subset_locations hl (List.mem_cons_of_mem _ hp))

variable (ht : t.InOrder)
include ht

theorem get_eq (hl : l ∈ t.locations) : get t l.node = some l := ht.getElem?_locations hl

/-- Nodes of the tree are looked up without fail. -/
theorem mapM_get_eq {ns : List Node} (hns : ∀ n ∈ ns, n ∈ t.nodes) :
    (ns.mapM fun n => return (← get t n).node) = some ns := by
  have hget : ∀ n ∈ ns, (do return (← get t n).node) = some (id n) := by
    intro n hn
    obtain ⟨l, hl, rfl⟩ := Tree.exists_location_of_mem_nodes (hns n hn)
    rw [get_eq ht hl]
    rfl
  rw [mapM_eq_some hget, List.map_id]

theorem children_eq (hn : n ∈ t.nodes) : children t n = some n.children := by
  obtain ⟨l, hl, rfl⟩ := Tree.exists_location_of_mem_nodes hn
  rw [children, get_eq ht hl]
  exact mapM_get_eq ht fun c hc => Tree.mem_nodes_of_mem_children hn hc

theorem ancestors_eq (hl : l ∈ t.locations) : ancestors t l.node = some l.above := by
  rw [ancestors, get_eq ht hl]
  exact mapM_get_eq ht (mem_nodes_of_mem_above hl)

theorem parent_eq (hl : l ∈ t.locations) : parent t l.node = some l.above.head? := by
  rw [parent, ancestors_eq ht hl]
  rfl

theorem forms_eq (hn : n ∈ t.nodes) : forms t n = some n.forms := by
  rw [forms, children_eq ht hn]
  rfl

theorem isWithin_eq (hl : l ∈ t.locations) (n : Node) :
    isWithin t l.node n = some (l.isWithin n) := by
  rw [isWithin, ancestors_eq ht hl]
  rfl

theorem isClosed_eq (hn : n ∈ t.nodes) : isClosed t n = some n.isClosed := by
  rw [isClosed, children_eq ht hn]
  rfl

end Nodes

/-! ### Deactivated forms -/

/-- The index where the sequence starts that goes on after siblings of the kinds `before`,
    nearest first; so far it is known to go back to the index `start`. -/
def sequenceStart (start : Nat) : (before : List Kind) → Nat
  | [] => start
  | k :: ks =>
    if k = .whitespace then sequenceStart start ks
    else if k.isForm then sequenceStart ks.length ks
    else start

/-- Whether markers deactivate a node, found from its index among its siblings. -/
def isDeactivated (n : Node) : Option Bool := do
  match ← parent t n with
  | none => return false
  | some p =>
    let siblings := (← children t p)
    match siblings.findIdx? (·.id == n.id) with
    | none => return false
    | some index =>
      let start := sequenceStart index ((← itemsBefore siblings index).map (·.kind)).reverse
      let before := ((← itemsBefore siblings start).map (·.kind)).reverse
      let markers := ((before.filter (· != .whitespace)).takeWhile (· == .formComment)).length
      let sequence ← itemsThrough siblings start index
      return 0 < markers && sequence.countP (·.kind.isForm) ≤ markers

/-- The forms of a node, each with whether it is deactivated. -/
def judgedForms (n : Node) : Option (List (Node × Bool)) := do
  (← forms t n).mapM fun f => return (f, ← isDeactivated t f)

/-- The forms of a node that no marker deactivates. -/
def activeForms (n : Node) : Option (List Node) := do
  return ((← judgedForms t n).filter fun f => !f.2).map Prod.fst

/-- A sequence that is known to go back over the kinds `blanks`, nearest first, and then
    goes on back, starts before a rest that has the same markers in front, and has the same
    forms. -/
theorem exists_sequenceStart_eq {blanks : List Kind} (hblanks : ∀ k ∈ blanks, k = .whitespace)
    (before : List Kind) :
    ∃ sequence rest, blanks ++ before = sequence ++ rest ∧
      sequenceStart (blanks ++ before).length before = rest.length ∧
      rest.filter (· != .whitespace) =
        (before.dropWhile continuesSequence).filter (· != .whitespace) ∧
      sequence.countP Kind.isForm = (before.takeWhile continuesSequence).countP Kind.isForm := by
  have hfilter : blanks.filter (· != .whitespace) = [] := by
    rw [List.filter_eq_nil_iff]
    intro k hk
    simp [hblanks k hk]
  have hcount : blanks.countP Kind.isForm = 0 := by
    rw [List.countP_eq_zero]
    intro k hk
    rw [hblanks k hk]
    decide
  induction before generalizing blanks with
  | nil => exact ⟨[], blanks ++ [], rfl, rfl, by simpa using hfilter, rfl⟩
  | cons k ks ih =>
    rw [sequenceStart]
    split
    · next hk =>
      -- a blank belongs to the sequence only if a form comes before it
      subst hk
      have hmore : ∀ k ∈ blanks ++ [.whitespace], k = .whitespace := by
        intro k hk
        rcases List.mem_append.1 hk with hk | hk
        · exact hblanks k hk
        · exact List.mem_singleton.1 hk
      obtain ⟨sequence, rest, hsplit, hstart, hmarkers, hforms⟩ :=
        ih hmore (by simp [hfilter]) (by simp [hcount]; decide)
      rw [List.append_assoc, List.singleton_append] at hsplit hstart
      exact ⟨sequence, rest, hsplit, hstart, hmarkers, hforms⟩
    split
    · next hform =>
      obtain ⟨sequence, rest, hsplit, hstart, hmarkers, hforms⟩ :=
        @ih [] (fun _ hk => absurd hk List.not_mem_nil) rfl rfl
      have hcontinues : continuesSequence k = true := by simp [continuesSequence, hform]
      refine ⟨blanks ++ k :: sequence, rest, ?_, hstart, ?_, ?_⟩
      · rw [List.append_assoc, List.cons_append, ← hsplit, List.nil_append]
      · rwa [List.dropWhile_cons_of_pos hcontinues]
      · rw [List.takeWhile_cons_of_pos hcontinues, List.countP_append, hcount, Nat.zero_add,
          List.countP_cons, List.countP_cons, hforms]
    · next hblank hform =>
      have hends : ¬continuesSequence k = true := by simp [continuesSequence, hblank, hform]
      refine ⟨[], blanks ++ k :: ks, rfl, rfl, ?_, ?_⟩
      · rw [List.filter_append, hfilter, List.dropWhile_cons_of_neg hends, List.nil_append]
      · rw [List.takeWhile_cons_of_neg hends]

theorem itemsBefore_append {α : Type} (xs ys : List α) :
    itemsBefore (xs ++ ys) xs.length = some xs := by
  rw [itemsBefore, if_pos (by simp), List.take_left]

theorem itemsThrough_append {α : Type} (xs ys : List α) (y : α) (zs : List α) :
    itemsThrough (xs ++ ys ++ y :: zs) xs.length (xs ++ ys).length = some (ys ++ [y]) := by
  have hsplit : xs ++ ys ++ y :: zs = (xs ++ ys ++ [y]) ++ zs := by simp
  have hlength : (xs ++ ys).length + 1 = (xs ++ ys ++ [y]).length := by
    rw [List.length_append, List.length_append, List.length_append, List.length_singleton]
  rw [itemsThrough, if_pos (by simp), hlength, hsplit, List.take_left, List.append_assoc,
    List.drop_left]

section Deactivated

variable {t} (ht : t.InOrder) {l : Location} {n p : Node}
include ht

/-- Siblings have other numbers. -/
theorem id_ne_of_mem_before {above pre post : List Node} (hp : ⟨p, above⟩ ∈ t.locations)
    (hchildren : p.children = pre ++ n :: post) : ∀ m ∈ pre, m.id ≠ n.id := by
  have hnodup := ht.nodup_children hp
  rw [hchildren, List.map_append, List.map_cons] at hnodup
  exact fun m hm => (List.nodup_append.1 hnodup).2.2 _ (List.mem_map_of_mem hm) _
    List.mem_cons_self

theorem isDeactivated_child {above pre post : List Node} (hl : ⟨n, p :: above⟩ ∈ t.locations)
    (hchildren : p.children = pre ++ n :: post) :
    isDeactivated t n = some (deactivates (pre.map (·.kind)).reverse n.kind) := by
  obtain ⟨hp, -⟩ := Tree.parent_mem_locations hl rfl
  have hindex : p.children.findIdx? (·.id == n.id) = some pre.length := by
    have hnone : pre.findIdx? (·.id == n.id) = none := List.findIdx?_eq_none_iff.2 fun m hm =>
      beq_eq_false_iff_ne.2 (id_ne_of_mem_before ht hp hchildren m hm)
    rw [hchildren, List.findIdx?_append, hnone]
    simp [List.findIdx?_cons]
  -- the siblings before the node are the sequence that it continues and a rest
  obtain ⟨sequence, rest, hsplit, hstart, hmarkers, hforms⟩ :=
    @exists_sequenceStart_eq [] (fun _ hk => absurd hk List.not_mem_nil) (pre.map (·.kind)).reverse
  have hkinds := congrArg List.reverse hsplit
  rw [List.nil_append, List.reverse_reverse, List.reverse_append] at hkinds
  obtain ⟨outer, inner, rfl, houter, hinner⟩ := List.map_eq_append_iff.1 hkinds
  rw [List.nil_append, List.length_reverse, List.length_map] at hstart
  have hlength : rest.length = outer.length := by
    rw [← List.length_reverse, ← houter, List.length_map]
  have hbefore : itemsBefore p.children (outer ++ inner).length = some (outer ++ inner) := by
    rw [hchildren, itemsBefore_append]
  have hrest : itemsBefore p.children rest.length = some outer := by
    rw [hchildren, hlength, List.append_assoc, itemsBefore_append]
  have hsequence : itemsThrough p.children rest.length (outer ++ inner).length =
      some (inner ++ [n]) := by
    rw [hchildren, hlength, itemsThrough_append]
  have hcount : (inner ++ [n]).countP (·.kind.isForm) =
      sequenceOrdinal ((outer ++ inner).map (·.kind)).reverse n.kind := by
    have hsame := congrArg (List.countP Kind.isForm) hinner
    rw [List.countP_map, List.countP_reverse] at hsame
    rw [sequenceOrdinal, ← hforms, ← hsame, List.countP_append, List.countP_singleton]
    rfl
  have hparent : parent t n = some (some p) := parent_eq ht hl
  rw [isDeactivated, hparent]
  simp only [Option.bind_eq_bind, Option.bind_some,
    children_eq ht (Tree.mem_nodes_of_mem_locations hp), hindex, hbefore, hstart, hrest, hsequence,
    houter, List.reverse_reverse, hmarkers, hcount]
  rfl

theorem isDeactivated_eq (hl : l ∈ t.locations) :
    isDeactivated t l.node = some l.isDeactivated := by
  obtain ⟨n, above⟩ := l
  cases above with
  | nil =>
    have hparent : parent t n = some none := parent_eq ht hl
    rw [isDeactivated, hparent]
    rfl
  | cons p above =>
    obtain ⟨hp, hn⟩ := Tree.parent_mem_locations hl rfl
    obtain ⟨pre, post, hchildren⟩ := List.append_of_mem hn
    have hbefore : Location.before ⟨n, p :: above⟩ = pre.reverse :=
      Location.before_eq rfl hchildren (id_ne_of_mem_before ht hp hchildren)
    rw [Location.isDeactivated, hbefore, List.map_reverse]
    exact isDeactivated_child ht hl hchildren

theorem judgedForms_eq (hl : l ∈ t.locations) :
    judgedForms t l.node = some l.node.judgedForms := by
  suffices hsuffix : ∀ ns pre, l.node.children = pre ++ ns →
      (ns.filter (·.kind.isForm)).mapM (fun f => return (f, ← isDeactivated t f)) =
        some (judgeForms (pre.map (·.kind)).reverse ns) by
    rw [judgedForms, forms_eq ht (Tree.mem_nodes_of_mem_locations hl)]
    exact hsuffix l.node.children [] rfl
  intro ns
  induction ns with
  | nil => exact fun _ _ => rfl
  | cons n ns ih =>
    intro pre hchildren
    have hrest := ih (pre ++ [n]) (by rw [hchildren, List.append_assoc, List.singleton_append])
    rw [List.map_append, List.map_singleton, List.reverse_append, List.reverse_singleton,
      List.singleton_append] at hrest
    have hn : ⟨n, l.node :: l.above⟩ ∈ t.locations :=
      Tree.children_subset_locations hl
        (List.mem_map.2 ⟨n, by rw [hchildren]; simp, rfl⟩)
    rw [judgeForms, List.filter_cons]
    split
    · rw [List.mapM_cons, hrest, isDeactivated_child ht hn hchildren]
      rfl
    · exact hrest

theorem activeForms_eq (hn : n ∈ t.nodes) : activeForms t n = some n.activeForms := by
  obtain ⟨l, hl, rfl⟩ := Tree.exists_location_of_mem_nodes hn
  rw [activeForms, judgedForms_eq ht hl]
  rfl

end Deactivated

/-! ### Inert code -/

/-- Fills the part of a byte string between two indices with blanks; they must be in order
    and in the string. -/
def fill (bs : List UInt8) (start stop : Nat) : Option (List UInt8) :=
  if start ≤ stop ∧ stop ≤ bs.length then some (blankOut bs start stop) else none

/-- Fills what the node `c` covers of a byte string that starts at the offset `base`, if it
    is a string or a comment. -/
def maskOne (base : Nat) (bs : List UInt8) (c : Node) : Option (List UInt8) :=
  let start := min (c.span.start - base) bs.length
  let stop := min (c.span.stop - base) bs.length
  if (c.kind = .string ∨ c.kind = .lineComment) ∧ start < stop then fill bs start stop
  else some bs

/-- The text of a node with blanks in place of the strings and comments that it holds. -/
def maskedChars (n : Node) : Option (List Char) := do
  return decodeLossy
    (← (← children t n).foldlM (maskOne n.span.start) (toBytes (t.chars n)))

/-- Whether a form directly inside a vector is deactivated by a marker that only the text
    of the vector shows. -/
def isMarkedInText (n : Node) : Option Bool := do
  match ← parent t n with
  | none => return false
  | some v =>
    let hasMarker := (← children t v).any (·.kind == .formComment)
    let text ← maskedChars t v
    return v.kind == .vector && !hasMarker && v.span.start ≤ n.span.start &&
      isPendingAt text (n.span.start - v.span.start)

/-- Whether a node is inert; one that is no form is judged by the form that it lies in. -/
def isInert (n : Node) : Option Bool := do
  match (n :: (← ancestors t n)).find? (·.kind.isForm) with
  | none => return false
  | some form =>
    let around := (form :: (← ancestors t form)).filter (·.kind.isForm)
    let isOff ← around.mapM (isDeactivated t)
    return isOff.any id || (← isMarkedInText t form)

theorem blankOut_min (bs : List UInt8) (start stop : Nat) :
    blankOut bs (min start bs.length) (min stop bs.length) = blankOut bs start stop := by
  refine List.ext_getElem? fun i => ?_
  simp only [blankOut, List.getElem?_mapIdx]
  cases hi : bs[i]? with
  | none => rfl
  | some b =>
    have hlt : i < bs.length := (List.getElem?_eq_some_iff.1 hi).1
    have hsame : (min start bs.length ≤ i ∧ i < min stop bs.length) ↔ (start ≤ i ∧ i < stop) := by
      omega
    simp only [Option.map_some, hsame]

theorem maskOne_eq (base : Nat) (bs : List UInt8) (c : Node) :
    maskOne base bs c = some (if c.kind = .string ∨ c.kind = .lineComment then
      blankOut bs (c.span.start - base) (c.span.stop - base) else bs) := by
  rw [← blankOut_min, maskOne]
  by_cases hkind : c.kind = .string ∨ c.kind = .lineComment
  · by_cases hlt : min (c.span.start - base) bs.length < min (c.span.stop - base) bs.length
    · rw [if_pos ⟨hkind, hlt⟩, if_pos hkind, fill,
        if_pos ⟨Nat.le_of_lt hlt, Nat.min_le_right _ _⟩]
    · -- nothing is filled if the part is empty
      have hempty : blankOut bs (min (c.span.start - base) bs.length)
          (min (c.span.stop - base) bs.length) = bs := by
        refine List.ext_getElem? fun i => ?_
        have hnot : ¬(min (c.span.start - base) bs.length ≤ i ∧
            i < min (c.span.stop - base) bs.length) := by
          omega
        simp only [blankOut, List.getElem?_mapIdx, if_neg hnot, Option.map_id']
      rw [if_neg fun h => hlt h.2, if_pos hkind, hempty]
  · rw [if_neg fun h => hkind h.1, if_neg hkind]

/-- A run whose steps all give a value gives the value of the run. -/
theorem foldlM_eq_some {α β : Type} {f : β → α → Option β} {g : β → α → β}
    (h : ∀ y x, f y x = some (g y x)) (xs : List α) (y : β) :
    xs.foldlM f y = some (xs.foldl g y) := by
  induction xs generalizing y with
  | nil => rfl
  | cons x xs ih =>
    rw [List.foldlM_cons, h]
    exact ih _

section Inert

variable {t} (ht : t.InOrder) {l : Location} {n : Node}
include ht

theorem maskedChars_eq (hn : n ∈ t.nodes) : maskedChars t n = some (t.maskedChars n) := by
  rw [maskedChars, children_eq ht hn]
  simp only [Option.bind_eq_bind, Option.bind_some, foldlM_eq_some (maskOne_eq n.span.start)]
  rfl

theorem isMarkedInText_eq (hl : l ∈ t.locations) :
    isMarkedInText t l.node = some (t.isMarkedInText l) := by
  obtain ⟨n, above⟩ := l
  cases above with
  | nil =>
    have hparent : parent t n = some none := parent_eq ht hl
    rw [isMarkedInText, hparent]
    rfl
  | cons v above =>
    have hparent : parent t n = some (some v) := parent_eq ht hl
    have hv := mem_nodes_of_mem_above hl v List.mem_cons_self
    rw [isMarkedInText, hparent]
    simp only [Option.bind_eq_bind, Option.bind_some, children_eq ht hv, maskedChars_eq ht hv]
    rfl

theorem isInert_eq (hl : l ∈ t.locations) : isInert t l.node = some (t.isInert l) := by
  have hself : ∀ l : Location, l.node :: l.above = l.selfAndAncestors.map (·.node) :=
    fun l => congrArg (l.node :: ·) (Location.map_node_chain l.above).symm
  have hfind : (l.node :: l.above).find? (·.kind.isForm) = l.enclosingForm?.map (·.node) := by
    rw [hself, List.find?_map]
    rfl
  rw [isInert, ancestors_eq ht hl, Tree.isInert]
  simp only [Option.bind_eq_bind, Option.bind_some, hfind]
  cases hform : l.enclosingForm? with
  | none => rfl
  | some f =>
    have hf := Tree.mem_locations_of_enclosingForm? hl hform
    have hoff : ((f.node :: f.above).filter (·.kind.isForm)).mapM (isDeactivated t) =
        some ((f.selfAndAncestors.filter (·.node.kind.isForm)).map (·.isDeactivated)) := by
      rw [hself, List.filter_map, List.mapM_map]
      refine mapM_eq_some fun a ha => isDeactivated_eq ht ?_
      exact Tree.selfAndAncestors_subset_locations hf (List.mem_filter.1 ha).1
    simp only [Option.map_some, ancestors_eq ht hf, Option.bind_some, hoff,
      isMarkedInText_eq ht hf, List.any_map, List.any_filter]
    rfl

end Inert

end Typeahead.Checked
