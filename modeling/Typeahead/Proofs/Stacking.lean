import Typeahead.Proofs.Records
import Typeahead.Proofs.Surroundings
import Typeahead.Tree.Marker

/-!
# Markers in one pass

What deactivates a form is told by looking back from it: over the sequence it is
in, to the adjacent markers in front of that. One pass over the siblings from
left to right finds the same forms. It keeps count of the markers that are
*pending*, those whose form is still to come (`Pending`): a marker adds to the
adjacent ones before it or begins a new run, a form uses up one, a blank changes
nothing, and anything else ends the run and its sequence.

* `Pending.Counts.next`: what the pass knows is what looking back would find,
  from one sibling to the next;
* `deactivates_eq_marks`: a form is deactivated where one is pending;
* `Builder.isDeactivated_build`: in any tree, the pass marks the deactivated
  children of every node.
-/

namespace Typeahead

/-- What a pass knows about the siblings behind it. -/
structure Pending where
  /-- The markers whose form is still to come. -/
  count : Nat
  /-- Whether the last sibling that is no blank was a marker. -/
  afterMarker : Bool

namespace Pending

/-- Before the first sibling nothing is pending. -/
def first : Pending := ⟨0, false⟩

/-- What is known after one more sibling, of the kind `k`. -/
def next (p : Pending) (k : Kind) : Pending :=
  if k = .whitespace then p
  else if k = .formComment then ⟨if p.afterMarker then p.count + 1 else 1, true⟩
  else if k.isForm then ⟨p.count - 1, false⟩
  else ⟨0, false⟩

/-- Whether a sibling of the kind `k` is marked: it is a form, and a marker is pending. -/
def marks (p : Pending) (k : Kind) : Bool := k.isForm && decide (0 < p.count)

/-- What is known after siblings of the kinds `before`, nearest first. -/
def after (before : List Kind) : Pending := before.foldr (fun k p => p.next k) first

/-- Which siblings are marked, for siblings of the kinds `ks` from left to right. -/
def pass (p : Pending) : List Kind → List Bool
  | [] => []
  | k :: ks => p.marks k :: (p.next k).pass ks

end Pending

/-- The number of markers that are the last siblings but for blanks, if the siblings have the
    kinds `before`, nearest first. -/
def adjacentMarkers (before : List Kind) : Nat :=
  ((before.filter (· != .whitespace)).takeWhile (· == .formComment)).length

/-- The number of forms in the sequence that goes on after siblings of the kinds `before`. -/
def sequenceLength (before : List Kind) : Nat :=
  (before.takeWhile continuesSequence).countP Kind.isForm

section Looking

variable (before : List Kind) {k : Kind}

theorem markersBefore_cons_of_continues (h : continuesSequence k = true) :
    markersBefore (k :: before) = markersBefore before := by
  rw [markersBefore, List.dropWhile_cons_of_pos h, markersBefore]

/-- What ends a sequence is looked at itself. -/
theorem markersBefore_cons_of_ends (h : continuesSequence k = false) :
    markersBefore (k :: before) = adjacentMarkers (k :: before) := by
  rw [markersBefore, List.dropWhile_cons_of_neg (by simp [h]), adjacentMarkers]

theorem sequenceLength_cons_of_ends (h : continuesSequence k = false) :
    sequenceLength (k :: before) = 0 := by
  rw [sequenceLength, List.takeWhile_cons_of_neg (by simp [h]), List.countP_nil]

theorem sequenceLength_cons_of_continues (h : continuesSequence k = true) :
    sequenceLength (k :: before) = sequenceLength before + if k.isForm then 1 else 0 := by
  rw [sequenceLength, List.takeWhile_cons_of_pos h, List.countP_cons, sequenceLength]

theorem adjacentMarkers_cons_formComment :
    adjacentMarkers (.formComment :: before) = adjacentMarkers before + 1 := rfl

theorem adjacentMarkers_cons_of_ne (hblank : k ≠ .whitespace) (hmarker : k ≠ .formComment) :
    adjacentMarkers (k :: before) = 0 := by
  rw [adjacentMarkers, List.filter_cons_of_pos (by simp [hblank]),
    List.takeWhile_cons_of_neg (by simp [hmarker]), List.length_nil]

end Looking

namespace Pending

/-- The pass knows what looking back over siblings of the kinds `before` would find: the markers
    in front of the sequence less the forms in it, and the adjacent ones if it has just passed
    some. -/
structure Counts (p : Pending) (before : List Kind) : Prop where
  count_eq : p.count = markersBefore before - sequenceLength before
  adjacent_eq : (if p.afterMarker then p.count else 0) = adjacentMarkers before

theorem counts_first : first.Counts [] := ⟨rfl, rfl⟩

/-- One more sibling: each kind of sibling does to what is pending what it does to the markers
    and the sequence behind. -/
theorem Counts.next {p : Pending} {before : List Kind} (h : p.Counts before) (k : Kind) :
    (p.next k).Counts (k :: before) := by
  rw [Pending.next]
  split
  · next hblank =>
    subst hblank
    refine ⟨?_, h.adjacent_eq⟩
    rw [markersBefore_cons_of_continues before rfl, sequenceLength_cons_of_continues before rfl]
    exact h.count_eq
  split
  · next hmarker =>
    subst hmarker
    -- a marker always ends the sequence, so that the adjacent ones are those in front of the next
    have hcount : (if p.afterMarker then p.count + 1 else 1) = adjacentMarkers before + 1 := by
      rw [← h.adjacent_eq]
      split <;> rfl
    refine ⟨?_, hcount⟩
    rw [markersBefore_cons_of_ends before rfl, sequenceLength_cons_of_ends before rfl]
    exact hcount
  split
  · next hblank hmarker hform =>
    have hgoes : continuesSequence k = true := by rw [continuesSequence, hform, Bool.or_true]
    refine ⟨?_, (adjacentMarkers_cons_of_ne before hblank hmarker).symm⟩
    rw [markersBefore_cons_of_continues before hgoes, sequenceLength_cons_of_continues before hgoes,
      if_pos hform, h.count_eq, Nat.sub_sub]
  · next hblank hmarker hform =>
    have hends : continuesSequence k = false := by simp [continuesSequence, hblank, hform]
    have hnone := adjacentMarkers_cons_of_ne before hblank hmarker
    refine ⟨?_, hnone.symm⟩
    rw [markersBefore_cons_of_ends before hends, hnone, Nat.zero_sub]

theorem counts_after (before : List Kind) : (after before).Counts before := by
  induction before with
  | nil => exact counts_first
  | cons k before ih => exact ih.next k

end Pending

/-- A form is deactivated by what is before it if and only if a pass over that has a marker
    pending. -/
theorem deactivates_eq_marks (before : List Kind) {k : Kind} (hk : k.isForm = true) :
    deactivates before k = (Pending.after before).marks k := by
  have hcount := (Pending.counts_after before).count_eq
  have hordinal : sequenceOrdinal before k = sequenceLength before + 1 := by
    rw [sequenceOrdinal, if_pos hk, sequenceLength]
  rw [deactivates, Pending.marks, hk, hordinal, Bool.true_and, hcount, ← Bool.decide_and,
    decide_eq_decide]
  omega

/-! ### The children of a node -/

namespace Node

/-- The children that the pass marks, or does not mark, each with the verdict. -/
theorem judgeForms_eq_pass (before : List Kind) (ns : List Node) :
    judgeForms before ns =
      (ns.zip ((Pending.after before).pass (ns.map (·.kind)))).filter (·.1.kind.isForm) := by
  induction ns generalizing before with
  | nil => rfl
  | cons n ns ih =>
    have hafter : Pending.after (n.kind :: before) = (Pending.after before).next n.kind := rfl
    rw [judgeForms, List.map_cons, Pending.pass, List.zip_cons_cons, List.filter_cons, ih, hafter]
    split
    · next hform => rw [deactivates_eq_marks before hform]
    · rfl

end Node

namespace Tree

variable {t : Tree} {l : Location}

/-- The siblings before a child are those that stand to its left. -/
theorem InOrder.before_eq (ht : t.InOrder) (hl : l ∈ t.locations) {n : Node} {pre post : List Node}
    (hchildren : l.node.children = pre ++ n :: post) :
    (⟨n, l.node :: l.above⟩ : Location).before = pre.reverse := by
  refine Location.before_eq rfl hchildren fun m hm heq => ?_
  have hids := ht.nodup_children hl
  rw [hchildren, List.map_append, List.map_cons] at hids
  exact (List.nodup_append.1 hids).2.2 _ (List.mem_map_of_mem hm) _ List.mem_cons_self heq

/-- From any child on, the deactivated forms among the children are those that the pass marks. -/
theorem InOrder.map_isDeactivated (ht : t.InOrder) (hl : l ∈ t.locations) (pre ns : List Node)
    (hchildren : l.node.children = pre ++ ns) :
    (ns.map fun n => n.kind.isForm && (⟨n, l.node :: l.above⟩ : Location).isDeactivated) =
      (Pending.after (pre.reverse.map (·.kind))).pass (ns.map (·.kind)) := by
  induction ns generalizing pre with
  | nil => rfl
  | cons n ns ih =>
    have hbefore := ht.before_eq hl hchildren
    have hrest := ih (pre ++ [n]) (by rw [hchildren, List.append_assoc]; rfl)
    have hafter : Pending.after ((pre ++ [n]).reverse.map (·.kind)) =
        (Pending.after (pre.reverse.map (·.kind))).next n.kind := by
      rw [List.reverse_append]
      rfl
    rw [hafter] at hrest
    rw [List.map_cons, List.map_cons, Pending.pass, hrest, Location.isDeactivated, hbefore]
    congr 1
    cases hform : n.kind.isForm with
    | false => rw [Pending.marks, hform, Bool.false_and, Bool.false_and]
    | true => rw [deactivates_eq_marks _ hform, Bool.true_and]

end Tree

namespace Builder

/-- In a tree built by any steps over any source, and so in the tree of any text, the forms among
    the children of a node that markers deactivate are those that one pass over the children
    from left to right marks; the active forms are the others. -/
theorem isDeactivated_build (source : List Char) (steps : List Step) {l : Location}
    (hl : l ∈ (build source steps).locations) :
    let marked := Pending.first.pass (l.node.children.map (·.kind))
    (l.children.map fun c => c.node.kind.isForm && c.isDeactivated) = marked ∧
      l.node.activeForms = ((l.node.children.zip marked).filter fun (n, off) =>
        n.kind.isForm && !off).map Prod.fst := by
  constructor
  · rw [Location.children, List.map_map]
    exact (inOrder_build source steps).map_isDeactivated hl [] _ rfl
  · rw [Node.activeForms, Node.judgedForms, Node.judgeForms_eq_pass, List.filter_filter]
    congr 2
    funext x
    exact Bool.and_comm _ _

/-- Two markers with a blank between them, one of them used up before a comment ends the run,
    and one more. -/
theorem isDeactivated_build_stacked :
    let t := build []
      [.start .vector 0, .token .openDelim ⟨0, 1⟩, .token .formComment ⟨1, 3⟩,
        .token .whitespace ⟨3, 4⟩, .token .formComment ⟨4, 6⟩, .token .symbol ⟨6, 7⟩,
        .token .lineComment ⟨7, 9⟩, .token .symbol ⟨9, 10⟩, .token .formComment ⟨10, 12⟩,
        .token .string ⟨12, 14⟩, .token .number ⟨14, 15⟩, .finish 15]
    let l : Location := ⟨t.root.children.headD t.root, [t.root]⟩
    l ∈ t.locations ∧
      (l.children.map fun c => c.node.kind.isForm && c.isDeactivated) =
        [false, false, false, false, true, false, false, false, true, false] ∧
      l.node.activeForms.map (·.span.start) = [9, 14] := by
  intro t l
  have hl : l ∈ t.locations := List.mem_cons_of_mem _ List.mem_cons_self
  obtain ⟨hmarked, hactive⟩ := isDeactivated_build _ _ hl
  exact ⟨hl, hmarked.trans rfl, by rw [hactive]; rfl⟩

end Builder

end Typeahead
