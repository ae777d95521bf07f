import Typeahead.Proofs.Answers

/-!
# Ranking is a stable sort

Candidates are ranked by lists of numbers: the number of the tier and, if ties are broken by what
is shown, the code points of that (`Candidate.sortKey`). A stable sort (`IsStableSort`) puts them in
the order of these keys, and candidates with the same key keep the order they had. There is only
one such list, so that ranking is determined by its keys alone.

A ranked list is ranked already: moving a tier up a second time changes nothing, what is sorted
stays as it is, and so does its beginning.

* `IsStableSort.eq`: there is at most one stable sort;
* `Candidate.isStableSort_mergeSort`: sorting by `Candidate.precedes` is one;
* `Candidate.rank_eq_stableSort`: what ranking does, once and twice.
-/

namespace Typeahead

/-! ### Stable sorts -/

/-- The list `sorted` has the elements of `l`, smaller keys first, and of those with one key each
    in the place that it has among them in `l`. Keys are compared number by number. -/
structure IsStableSort {α : Type} (key : α → List Nat) (l sorted : List α) : Prop where
  perm : sorted.Perm l
  ordered : sorted.Pairwise fun a b => ¬List.Lex (· < ·) (key b) (key a)
  stable : ∀ k, sorted.filter (key · == k) = l.filter (key · == k)

section

variable {α : Type} {key : α → List Nat}

/-- No key in an ordered list is smaller than the first one. -/
theorem not_lex_head {a b : α} {l : List α}
    (h : (a :: l).Pairwise fun a b => ¬List.Lex (· < ·) (key b) (key a)) (hb : b ∈ a :: l) :
    ¬List.Lex (· < ·) (key b) (key a) := by
  rcases List.mem_cons.1 hb with rfl | hb
  · exact List.lt_irrefl (key b)
  · exact (List.pairwise_cons.1 h).1 b hb

theorem mem_of_filter_key_eq {l l' : List α} {a : α}
    (h : l.filter (key · == key a) = l'.filter (key · == key a)) (ha : a ∈ l) : a ∈ l' := by
  have hmem : a ∈ l.filter (key · == key a) := List.mem_filter.2 ⟨ha, beq_self_eq_true _⟩
  rw [h] at hmem
  exact (List.mem_filter.1 hmem).1

/-- Ordered lists are the same if they have the same elements of every key, in the same order. -/
theorem eq_of_filter_key_eq {l l' : List α}
    (h : l.Pairwise fun a b => ¬List.Lex (· < ·) (key b) (key a))
    (h' : l'.Pairwise fun a b => ¬List.Lex (· < ·) (key b) (key a))
    (heq : ∀ k, l.filter (key · == k) = l'.filter (key · == k)) : l = l' := by
  induction l generalizing l' with
  | nil =>
    cases l' with
    | nil => rfl
    | cons b l' => exact absurd (mem_of_filter_key_eq (heq (key b)).symm List.mem_cons_self) (by simp)
  | cons a l ih =>
    cases l' with
    | nil => exact absurd (mem_of_filter_key_eq (heq (key a)) List.mem_cons_self) (by simp)
    | cons b l' =>
      -- each first element occurs in the other list, so neither has the smaller key
      have ha : a ∈ b :: l' := mem_of_filter_key_eq (heq (key a)) List.mem_cons_self
      have hb : b ∈ a :: l := mem_of_filter_key_eq (heq (key b)).symm List.mem_cons_self
      have hkey : key a = key b := List.le_antisymm (not_lex_head h hb) (not_lex_head h' ha)
      have hfirst := heq (key a)
      rw [List.filter_cons, List.filter_cons, if_pos (beq_self_eq_true _),
        if_pos (beq_iff_eq.2 hkey.symm)] at hfirst
      obtain ⟨rfl, hrest⟩ := List.cons.inj hfirst
      congr 1
      refine ih (List.pairwise_cons.1 h).2 (List.pairwise_cons.1 h').2 fun k => ?_
      by_cases hk : key a = k
      · rw [← hk]
        exact hrest
      · have hother := heq k
        rwa [List.filter_cons, List.filter_cons, if_neg (mt beq_iff_eq.1 hk),
          if_neg (mt beq_iff_eq.1 hk)] at hother

/-- There is at most one stable sort. -/
theorem IsStableSort.eq {l s s' : List α} (h : IsStableSort key l s) (h' : IsStableSort key l s') :
    s = s' :=
  eq_of_filter_key_eq h.ordered h'.ordered fun k => (h.stable k).trans (h'.stable k).symm

end

/-! ### The keys of candidates -/

/-- Texts are compared by the code points of their characters. -/
theorem lex_codePoints_iff (cs ds : List Char) :
    List.Lex (· < ·) (cs.map Char.toNat) (ds.map Char.toNat) ↔ cs < ds := by
  induction cs generalizing ds with
  | nil =>
    cases ds with
    | nil => exact iff_of_false (List.lt_irrefl _) (List.lt_irrefl _)
    | cons d ds => exact iff_of_true .nil (List.nil_lt_cons d ds)
  | cons c cs ih =>
    cases ds with
    | nil => exact iff_of_false (List.not_lt_nil _) (List.not_lt_nil _)
    | cons d ds =>
      rw [List.map_cons, List.map_cons, List.cons_lt_cons_iff]
      refine List.cons_lt_cons_iff.trans (or_congr ?_ (and_congr ?_ (ih ds)))
      · exact Iff.rfl
      · exact Char.toNat_inj

namespace Candidate

/-- What a candidate is ranked by: the number of its tier, and then what it shows if that breaks
    ties. -/
def sortKey : TieBreak → Candidate → List Nat
  | .insertionOrder, c => [c.priority.rank]
  | .alphabetical, c => c.priority.rank :: c.display.toList.map Char.toNat

theorem precedes_iff_sortKey {tie : TieBreak} {c d : Candidate} :
    precedes tie c d = true ↔ ¬List.Lex (· < ·) (d.sortKey tie) (c.sortKey tie) := by
  rw [precedes_iff]
  cases tie with
  | insertionOrder =>
    refine (or_congr_right (and_congr_right fun _ => ?_)).trans List.cons_le_cons_iff.symm
    exact iff_of_true (by simp) (List.lt_irrefl _)
  | alphabetical =>
    refine (or_congr_right (and_congr_right fun _ => ?_)).trans List.cons_le_cons_iff.symm
    exact ⟨fun h => mt (lex_codePoints_iff _ _).1 (h rfl),
      fun h _ => mt (lex_codePoints_iff _ _).2 h⟩

/-- Sorting candidates is stable. -/
theorem isStableSort_mergeSort (tie : TieBreak) (cs : List Candidate) :
    IsStableSort (sortKey tie) cs (cs.mergeSort (precedes tie)) where
  perm := List.mergeSort_perm _ _
  ordered := (List.pairwise_mergeSort precedes_trans precedes_total cs).imp precedes_iff_sortKey.1
  stable k := by
    -- the candidates with one key are in order as they are, so sorting keeps them so
    have hordered : (cs.filter (sortKey tie · == k)).Pairwise fun c d => precedes tie c d = true := by
      refine List.pairwise_of_forall_mem_list fun c hc d hd => precedes_iff_sortKey.2 ?_
      rw [beq_iff_eq.1 (List.mem_filter.1 hc).2, beq_iff_eq.1 (List.mem_filter.1 hd).2]
      exact List.lt_irrefl k
    have hsublist := (List.sublist_mergeSort precedes_trans precedes_total hordered
      List.filter_sublist).filter (sortKey tie · == k)
    simp only [List.filter_filter, Bool.and_self] at hsublist
    exact (hsublist.eq_of_length ((List.mergeSort_perm cs _).filter _).length_eq.symm).symm

end Candidate

/-! ### Ranking twice -/

theorem Priority.better_better (p q : Priority) : (p.better q).better q = p.better q := by
  rw [better, better]
  split
  · rfl
  · exact ite_self q

theorem Priority.adjust_adjust (called : Option String) (name : String) (p : Priority) :
    (p.adjust called name).adjust called name = p.adjust called name := by
  rw [adjust, adjust]
  cases inContext? called name with
  | some tier => exact p.better_better tier
  | none => rfl

namespace Candidate

variable (called : Option String)

/-- Adjusting changes the tier of candidates that are no remarks, and nothing else. -/
theorem adjust_eq (c : Candidate) : c.adjust called =
    { c with
      priority := if c.isRemark then c.priority else c.priority.adjust called c.text } := by
  rw [adjust]
  split <;> rfl

theorem adjust_adjust (c : Candidate) : (c.adjust called).adjust called = c.adjust called := by
  rw [adjust_eq called (c.adjust called), isRemark, (alike_adjust called c).insertion_eq,
    (alike_adjust called c).text_eq, ← isRemark, adjust_eq]
  cases c.isRemark with
  | true => rfl
  | false =>
    exact congrArg (fun p => { c with priority := p }) (c.priority.adjust_adjust called c.text)

variable (criteria : Criteria) (cs : List Candidate)

theorem rank_eq_elim_mergeSort : rank called criteria cs =
    let sorted := (cs.map (adjust called)).mergeSort (precedes criteria.tieBreak)
    criteria.maxResults.elim sorted sorted.take := by
  rw [rank]
  cases criteria.maxResults <;> rfl

/-- A ranked list is the beginning of a sorted one. -/
theorem rank_sublist_mergeSort : (rank called criteria cs).Sublist
    ((cs.map (adjust called)).mergeSort (precedes criteria.tieBreak)) := by
  rw [rank_eq_elim_mergeSort]
  cases criteria.maxResults with
  | none => exact List.Sublist.refl _
  | some n => exact List.take_sublist _ _

theorem pairwise_precedes_rank :
    (rank called criteria cs).Pairwise fun c d => precedes criteria.tieBreak c d = true :=
  (List.pairwise_mergeSort precedes_trans precedes_total _).sublist
    (rank_sublist_mergeSort called criteria cs)

theorem map_adjust_rank :
    (rank called criteria cs).map (adjust called) = rank called criteria cs := by
  refine (List.map_congr_left fun d hd => ?_).trans (List.map_id _)
  have hd := (List.mergeSort_perm _ _).subset ((rank_sublist_mergeSort called criteria cs).subset hd)
  obtain ⟨c, -, rfl⟩ := List.mem_map.1 hd
  exact adjust_adjust called c

theorem rank_rank : rank called criteria (rank called criteria cs) = rank called criteria cs := by
  rw [rank_eq_elim_mergeSort called criteria (rank called criteria cs), map_adjust_rank,
    List.mergeSort_of_pairwise (pairwise_precedes_rank called criteria cs)]
  dsimp only
  cases hlimit : criteria.maxResults with
  | none => rfl
  | some n => exact List.take_of_length_le (length_rank_le called criteria cs n hlimit)

/-- Ranking puts the candidates, each with its tier in the arguments of the function `called` unless
    it is a remark, in the one order that a stable sort by tiers, and by what is shown if that
    breaks ties, gives them, and keeps as many as the criteria allow. Ranking a second time changes
    nothing. -/
theorem rank_eq_stableSort (called : Option String) (criteria : Criteria) (cs : List Candidate) :
    let adjusted := cs.map fun c =>
      { c with priority := if c.isRemark then c.priority else c.priority.adjust called c.text }
    ∃ sorted, (∀ l, IsStableSort (sortKey criteria.tieBreak) adjusted l ↔ l = sorted) ∧
      rank called criteria cs = criteria.maxResults.elim sorted sorted.take ∧
      rank called criteria (rank called criteria cs) = rank called criteria cs := by
  intro adjusted
  have hadjusted : cs.map (adjust called) = adjusted :=
    List.map_congr_left fun c _ => adjust_eq called c
  have hsorted := isStableSort_mergeSort criteria.tieBreak adjusted
  refine ⟨adjusted.mergeSort (precedes criteria.tieBreak), fun l => ⟨fun h => h.eq hsorted, ?_⟩, ?_,
    rank_rank called criteria cs⟩
  · rintro rfl
    exact hsorted
  · rw [rank_eq_elim_mergeSort, hadjusted]

end Candidate

end Typeahead
