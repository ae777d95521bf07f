import Typeahead.Proofs.Answers

/-!
# Names typed letter by letter

Whoever types a name types one beginning of it after the other, and a sink should hold the name all
the while. It compares the lower case of what is typed with that of the name, and lower case goes
letter by letter, with one exception: a capital sigma has another small form at the end of a word
than inside one. A beginning may end in a sigma where the word goes on, and then its lower case does
not begin the lower case of the name.

* `lowercaseAfter_isPrefix_iff`: when the lower case of a beginning is a beginning of the lower case;
* `Sink.admits_beginning_iff`: which beginnings of a name hide it.
-/

namespace Typeahead

/-- Whether the text `cs`, which follows `before`, last character first, ends in a capital sigma
    that ends a word: the sigma follows a letter, and what follows the sigma belongs to no word on
    its own. -/
def EndsInSigma (before cs : List Char) : Prop :=
  ∃ u v, cs = u ++ 'Σ' :: v ∧ startsCased (u.reverse ++ before) = true ∧
    v.all (inRanges caseIgnorableRanges) = true

theorem endsInSigma_cons {before cs : List Char} {c : Char} :
    EndsInSigma before (c :: cs) ↔
      (c = 'Σ' ∧ startsCased before = true ∧ cs.all (inRanges caseIgnorableRanges) = true) ∨
        EndsInSigma (c :: before) cs := by
  constructor
  · rintro ⟨u, v, hcs, hbefore, hv⟩
    cases u with
    | nil =>
      obtain ⟨rfl, rfl⟩ := List.cons.inj hcs
      exact .inl ⟨rfl, hbefore, hv⟩
    | cons d u =>
      obtain ⟨rfl, rfl⟩ := List.cons.inj hcs
      rw [List.reverse_cons, List.append_assoc] at hbefore
      exact .inr ⟨u, v, rfl, hbefore, hv⟩
  · rintro (⟨rfl, hbefore, hcs⟩ | ⟨u, v, rfl, hbefore, hv⟩)
    · exact ⟨[], cs, rfl, hbefore, hcs⟩
    · refine ⟨c :: u, v, rfl, ?_, hv⟩
      rwa [List.reverse_cons, List.append_assoc]

theorem startsCased_cons_of_pos {c : Char} (hc : inRanges caseIgnorableRanges c = true)
    (cs : List Char) : startsCased (c :: cs) = startsCased cs := by
  rw [startsCased, List.dropWhile_cons_of_pos hc, ← startsCased]

theorem startsCased_cons_of_neg {c : Char} (hc : ¬inRanges caseIgnorableRanges c = true)
    (cs : List Char) : startsCased (c :: cs) = inRanges casedRanges c := by
  rw [startsCased, List.dropWhile_cons_of_neg hc]

/-- What belongs to no word on its own is passed over, and the first other character decides. -/
theorem startsCased_append (s t : List Char) :
    startsCased (s ++ t) =
      if s.all (inRanges caseIgnorableRanges) then startsCased t else startsCased s := by
  induction s with
  | nil => rfl
  | cons c s ih =>
    rw [List.cons_append, List.all_cons]
    by_cases hc : inRanges caseIgnorableRanges c = true
    · rw [startsCased_cons_of_pos hc, startsCased_cons_of_pos hc, ih, hc, Bool.true_and]
    · rw [startsCased_cons_of_neg hc, startsCased_cons_of_neg hc, Bool.eq_false_iff.2 hc,
        Bool.false_and]
      rfl

theorem startsCased_of_all {s : List Char} (h : s.all (inRanges caseIgnorableRanges) = true) :
    startsCased s = false := by
  have happend := startsCased_append s []
  rwa [List.append_nil, if_pos h] at happend

/-- The form of a sigma changes with what comes later if the sigma has ended a word and the word
    goes on. -/
theorem smallSigma_append_eq_iff (before after rest : List Char) :
    smallSigma before after = smallSigma before (after ++ rest) ↔
      ¬((startsCased before = true ∧ after.all (inRanges caseIgnorableRanges) = true) ∧
        startsCased rest = true) := by
  rw [smallSigma, smallSigma, startsCased_append]
  cases hbefore : startsCased before with
  | false => simp
  | true =>
    cases hafter : after.all (inRanges caseIgnorableRanges) with
    | false => simp
    | true =>
      rw [startsCased_of_all hafter]
      cases startsCased rest <;> simp

/-- The lower case of a beginning is a beginning of the lower case, unless the beginning ends in a
    sigma that ends a word and the word goes on. -/
theorem lowercaseAfter_isPrefix_iff (before cs rest : List Char) :
    lowercaseAfter before cs <+: lowercaseAfter before (cs ++ rest) ↔
      ¬(EndsInSigma before cs ∧ startsCased rest = true) := by
  induction cs generalizing before with
  | nil =>
    refine iff_of_true List.nil_prefix ?_
    rintro ⟨⟨u, v, h, -⟩, -⟩
    exact absurd h (by simp)
  | cons c cs ih =>
    rw [List.cons_append, lowercaseAfter, lowercaseAfter, endsInSigma_cons]
    by_cases hc : c = 'Σ'
    · -- only here does what comes later matter, and a difference stays
      rw [if_pos hc, if_pos hc, List.singleton_append, List.singleton_append, List.cons_prefix_cons,
        smallSigma_append_eq_iff, ih]
      simp only [hc, true_and, or_and_right, not_or]
    · rw [if_neg hc, if_neg hc, List.prefix_append_right_inj, ih]
      simp only [hc, false_and, false_or]

/-- A sink for a beginning of a name takes the name, unless the beginning ends in a capital sigma
    that ends a word in it and not in the name. -/
theorem Sink.admits_beginning_iff (typed rest : String) (priority : Priority) :
    (Sink.new typed).admits (Candidate.plain (typed ++ rest) priority) = true ↔
      ¬(EndsInSigma [] typed.toList ∧ startsCased rest.toList = true) := by
  rw [← lowercaseAfter_isPrefix_iff, ← String.toList_append, admits, Bool.and_eq_true]
  -- an empty sink has no key, and a plain candidate is compared by its text
  have hkey : (!(Sink.new typed).contains (Candidate.plain (typed ++ rest) priority).key) = true := rfl
  rw [and_iff_left hkey]
  exact List.isPrefixOf_iff_prefix

/-- One letter more hides the name, and the next one shows it again. -/
theorem Sink.admits_beginning_sigma :
    (Sink.new "Α").admits (Candidate.plain "ΑΣΑ" .commonBuiltins) = true ∧
      (Sink.new "ΑΣ").admits (Candidate.plain "ΑΣΑ" .commonBuiltins) = false ∧
      (Sink.new "ΑΣΑ").admits (Candidate.plain "ΑΣΑ" .commonBuiltins) = true := by
  decide +kernel

end Typeahead
