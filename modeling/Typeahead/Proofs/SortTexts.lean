import Typeahead.Candidate.Item

/-!
# Sort texts

Editors sort items by their sort texts, character by character, so these should increase along an
answer. A sort text is the number of the item, with zeros in front up to four digits. Numbers with
the same count of digits are ordered like their texts. A longer number is compared by its leading
digits alone: the item 10000 sorts after the item 1000, but before the item 1001.

* `padded_lt_padded_iff`: the order of numbers with the same count of digits;
* `padded_lt_padded_iff_of_lt`: the order of any two numbers;
* `Candidate.increasing_sortTexts_iff`: which answers keep their order, and which pairs of items.
-/

namespace Typeahead

theorem append_lt_append_iff {a b : List Char} (h : a.length = b.length) (s t : List Char) :
    a ++ s < b ++ t ↔ a < b ∨ a = b ∧ s < t := by
  induction a generalizing b with
  | nil =>
    rw [List.eq_nil_of_length_eq_zero h.symm]
    simp
  | cons c a ih =>
    cases b with
    | nil => exact absurd h (by simp)
    | cons d b =>
      rw [List.cons_append, List.cons_append, List.cons_lt_cons_iff, List.cons_lt_cons_iff,
        ih (Nat.succ.inj h), List.cons.injEq, and_or_left, or_assoc, and_assoc]

/-! ### Numbers with leading zeros -/

theorem length_padded (width n : Nat) :
    (padded width n).length = max width (Nat.toDigits 10 n).length := by
  rw [padded, List.length_append, List.length_replicate]
  omega

/-- A number is written out the same way if its own count of digits is asked for. -/
theorem padded_length_padded (width n : Nat) :
    padded (padded width n).length n = padded width n := by
  rw [length_padded, padded, padded]
  congr 2
  omega

theorem length_padded_le {m n : Nat} (width : Nat) (h : m ≤ n) :
    (padded width m).length ≤ (padded width n).length := by
  have hpos : 0 < (Nat.toDigits 10 n).length := Nat.length_toDigits_pos
  have hn := (Nat.length_toDigits_le_iff (b := 10) (by decide) hpos).1 (Nat.le_refl _)
  have hm := (Nat.length_toDigits_le_iff (by decide) hpos).2 (Nat.lt_of_le_of_lt h hn)
  rw [length_padded, length_padded]
  omega

/-- The last digit of a number stands after those of its tenth. -/
theorem padded_succ {width : Nat} (hwidth : 0 < width) (n : Nat) :
    padded (width + 1) n = padded width (n / 10) ++ [Nat.digitChar (n % 10)] := by
  rw [padded, padded]
  by_cases hn : n < 10
  · obtain ⟨w, rfl⟩ := Nat.exists_eq_succ_of_ne_zero (Nat.ne_of_gt hwidth)
    rw [Nat.toDigits_of_lt_base hn, Nat.div_eq_of_lt hn, Nat.toDigits_zero, Nat.mod_eq_of_lt hn]
    change List.replicate (w + 1) '0' ++ _ = List.replicate w '0' ++ ['0'] ++ _
    rw [List.replicate_succ']
  · have hdigits := Nat.toDigits_of_base_le (b := 10) (n := n) (by decide) (by omega)
    rw [hdigits, List.length_append, List.length_singleton, Nat.add_sub_add_right, List.append_assoc]

/-- The leading digits of a number are those of a quotient by a power of ten. -/
theorem exists_padded_add_eq {width : Nat} (hwidth : 0 < width) (k n : Nat) :
    ∃ ds : List Char, ds.length = k ∧
      padded (width + k) n = padded width (n / Nat.pow 10 k) ++ ds := by
  induction k generalizing n with
  | zero => exact ⟨[], rfl, by rw [List.append_nil, Nat.add_zero]; exact congrArg _ (Nat.div_one n).symm⟩
  | succ k ih =>
    obtain ⟨ds, hds, heq⟩ := ih (n / 10)
    have hpow : n / 10 / Nat.pow 10 k = n / Nat.pow 10 (k + 1) := by
      rw [Nat.div_div_eq_div_mul, Nat.mul_comm]
      rfl
    refine ⟨ds ++ [Nat.digitChar (n % 10)], by simp [hds], ?_⟩
    rw [← Nat.add_assoc, padded_succ (by omega), heq, hpow, List.append_assoc]

/-- Reading a number back gives it again, so that numbers are told apart by their texts. -/
theorem padded_inj {width m n : Nat} : padded width m = padded width n ↔ m = n := by
  have hread (k : Nat) : Nat.ofDigitChars 10 (padded width k) 0 = k := by
    rw [padded, Nat.ofDigitChars_append, Nat.ofDigitChars_replicate_zero, Nat.mul_zero,
      Nat.ofDigitChars_ten_toDigits]
  refine ⟨fun h => ?_, fun h => by rw [h]⟩
  rw [← hread m, h, hread]

theorem digitChar_lt_digitChar_iff {m n : Nat} (hm : m < 10) (hn : n < 10) :
    Nat.digitChar m < Nat.digitChar n ↔ m < n := by
  have h : Nat.digitChar m < Nat.digitChar n ↔ m.digitChar.toNat < n.digitChar.toNat := Iff.rfl
  rw [h, Nat.toNat_digitChar_of_lt_ten hm, Nat.toNat_digitChar_of_lt_ten hn]
  omega

theorem padded_one_eq {n : Nat} (h : (padded 1 n).length = 1) :
    n < 10 ∧ padded 1 n = [Nat.digitChar n] := by
  rw [length_padded] at h
  have hn : n < 10 := (Nat.length_toDigits_le_iff (b := 10) (by decide) Nat.one_pos).1 (by omega)
  exact ⟨hn, by rw [padded, Nat.toDigits_of_lt_base hn]; rfl⟩

/-- Numbers written with the same count of digits are ordered like their texts. -/
theorem padded_lt_padded_iff {width m n : Nat} (hwidth : 0 < width)
    (hm : (padded width m).length = width) (hn : (padded width n).length = width) :
    padded width m < padded width n ↔ m < n := by
  induction width generalizing m n with
  | zero => exact absurd hwidth (Nat.lt_irrefl 0)
  | succ w ih =>
    rcases Nat.eq_zero_or_pos w with rfl | hw
    · obtain ⟨hm, hmeq⟩ := padded_one_eq hm
      obtain ⟨hn, hneq⟩ := padded_one_eq hn
      rw [hmeq, hneq, List.cons_lt_cons_iff, digitChar_lt_digitChar_iff hm hn]
      simp
    · -- the tenths decide, and between equal tenths the last digits
      rw [padded_succ hw, List.length_append, List.length_singleton] at hm hn
      have hm := Nat.succ.inj hm
      have hn := Nat.succ.inj hn
      have hdigits := digitChar_lt_digitChar_iff (Nat.mod_lt m (by decide : 0 < 10))
        (Nat.mod_lt n (by decide : 0 < 10))
      rw [padded_succ hw, padded_succ hw, append_lt_append_iff (hm.trans hn.symm), ih hw hm hn,
        padded_inj, List.cons_lt_cons_iff, hdigits]
      simp only [List.not_lt_nil, and_false, or_false]
      omega

/-- Of two numbers the text of the smaller one comes first if it is not above the leading digits of
    the other. -/
theorem padded_lt_padded_iff_of_lt {width m n : Nat} (hwidth : 0 < width) (h : m < n) :
    padded width m < padded width n ↔
      m ≤ n / Nat.pow 10 ((padded width n).length - (padded width m).length) := by
  obtain ⟨k, hk⟩ := Nat.exists_eq_add_of_le (length_padded_le width (Nat.le_of_lt h))
  have hpos : 0 < (padded width m).length := by
    rw [length_padded]
    omega
  obtain ⟨ds, hds, heq⟩ := exists_padded_add_eq hpos k n
  rw [← hk, padded_length_padded] at heq
  have hm := congrArg List.length (padded_length_padded width m)
  have hlead : (padded (padded width m).length (n / Nat.pow 10 k)).length =
      (padded width m).length := by
    have hlength := congrArg List.length heq
    rw [List.length_append] at hlength
    omega
  have hcompare := append_lt_append_iff (hm.trans hlead.symm) [] ds
  rw [padded_lt_padded_iff hpos hm hlead, padded_inj, List.append_nil, padded_length_padded, ← heq]
    at hcompare
  rw [hcompare, hk, Nat.add_sub_cancel_left]
  cases ds with
  | nil =>
    -- both have the same count of digits, and there is nothing but leading digits
    obtain rfl : k = 0 := hds.symm
    have hone : n / Nat.pow 10 0 = n := Nat.div_one n
    rw [hone]
    simp only [List.not_lt_nil, and_false, or_false]
    omega
  | cons d ds =>
    simp only [List.nil_lt_cons, and_true]
    omega

/-! ### Items -/

namespace Candidate

theorem sortText_of_getElem?_toItems {cs : List Candidate} {i : Nat} {a : Item}
    (h : (toItems cs)[i]? = some a) : a.sortText = String.ofList (padded 4 i) := by
  rw [toItems, List.getElem?_mapIdx] at h
  obtain ⟨c, -, rfl⟩ := Option.map_eq_some_iff.1 h
  rfl

/-- How an editor sorts two items of an answer. -/
theorem sortText_lt_sortText_iff {cs : List Candidate} {i j : Nat} {a b : Item} (hij : i < j)
    (ha : (toItems cs)[i]? = some a) (hb : (toItems cs)[j]? = some b) :
    a.sortText < b.sortText ↔
      i ≤ j / Nat.pow 10 (b.sortText.length - a.sortText.length) := by
  rw [sortText_of_getElem?_toItems ha, sortText_of_getElem?_toItems hb, String.lt_iff,
    String.toList_ofList, String.toList_ofList, String.length_ofList, String.length_ofList]
  exact padded_lt_padded_iff_of_lt (by decide) hij

/-- Numbers with at most four digits keep their order. -/
theorem pairwise_sortText {cs : List Candidate} (h : cs.length ≤ 10000) :
    ((toItems cs).map Item.sortText).Pairwise (· < ·) := by
  have hlength : (toItems cs).length = cs.length := List.length_mapIdx
  refine List.pairwise_map.2 (List.pairwise_iff_getElem.2 fun i j hi hj hij => ?_)
  have hi? := List.getElem?_eq_getElem hi
  have hj? := List.getElem?_eq_getElem hj
  have hfour {n : Nat} (hn : n < 10000) : (padded 4 n).length = 4 := by
    have hdigits : (Nat.toDigits 10 n).length ≤ 4 :=
      (Nat.length_toDigits_le_iff (by decide) (by decide)).2 hn
    rw [length_padded]
    omega
  rw [sortText_of_getElem?_toItems hi?, sortText_of_getElem?_toItems hj?, String.lt_iff,
    String.toList_ofList, String.toList_ofList]
  exact (padded_lt_padded_iff (by decide) (hfour (by omega)) (hfour (by omega))).2 hij

/-- The first number with five digits sorts before the last one with four. -/
theorem not_pairwise_sortText {cs : List Candidate} (h : 10000 < cs.length) :
    ¬((toItems cs).map Item.sortText).Pairwise (· < ·) := by
  intro hpairwise
  have hlength : (toItems cs).length = cs.length := List.length_mapIdx
  have hi : 9999 < (toItems cs).length := by omega
  have hj : 10000 < (toItems cs).length := by omega
  have hlt := List.pairwise_iff_getElem.1 (List.pairwise_map.1 hpairwise) 9999 10000 hi hj (by decide)
  rw [sortText_of_getElem?_toItems (List.getElem?_eq_getElem hi),
    sortText_of_getElem?_toItems (List.getElem?_eq_getElem hj)] at hlt
  exact absurd hlt (by decide +kernel)

/-- The sort texts increase along an answer just if it has at most 10000 items. In a longer one, of
    two items the first sorts before the other if its number is not above the leading digits of the
    other's, as many as it has itself. -/
theorem increasing_sortTexts_iff (cs : List Candidate) :
    (((toItems cs).map Item.sortText).Pairwise (· < ·) ↔ cs.length ≤ 10000) ∧
      ∀ i j a b, i < j → (toItems cs)[i]? = some a → (toItems cs)[j]? = some b →
        (a.sortText < b.sortText ↔
          i ≤ j / Nat.pow 10 (b.sortText.length - a.sortText.length)) :=
  ⟨⟨fun h => Nat.le_of_not_lt fun hlong => not_pairwise_sortText hlong h, pairwise_sortText⟩,
    fun _ _ _ _ => sortText_lt_sortText_iff⟩

/-- In a long answer the item 10000 sorts after the item 1000 and before the item 1001. -/
theorem increasing_sortTexts_iff_long :
    ∃ items x y z, items = toItems (List.replicate 10001 (plain "a" .commonBuiltins)) ∧
      items[1000]? = some x ∧ items[1001]? = some y ∧ items[10000]? = some z ∧
      x.sortText < z.sortText ∧ ¬y.sortText < z.sortText := by
  have hitem {i : Nat} (hi : i < 10001) :
      (toItems (List.replicate 10001 (plain "a" .commonBuiltins)))[i]? =
        some ((plain "a" .commonBuiltins).toItem i) := by
    rw [toItems, List.getElem?_mapIdx, List.getElem?_replicate_of_lt hi]
    rfl
  have hx := hitem (i := 1000) (by decide)
  have hy := hitem (i := 1001) (by decide)
  have hz := hitem (i := 10000) (by decide)
  have hpair := (increasing_sortTexts_iff (List.replicate 10001 (plain "a" .commonBuiltins))).2
  refine ⟨_, _, _, _, rfl, hx, hy, hz, ?_, ?_⟩
  · exact (hpair 1000 10000 _ _ (by decide) hx hz).2 (by decide +kernel)
  · exact mt (hpair 1001 10000 _ _ (by decide) hy hz).1 (by decide +kernel)

/-- An answer with 10001 items is not in the order of their sort texts. -/
theorem unsorted_sortTexts :
    ¬((toItems (List.replicate 10001 (plain "a" .commonBuiltins))).map Item.sortText).Pairwise
      (· < ·) :=
  not_pairwise_sortText (by rw [List.length_replicate]; decide)

end Candidate

end Typeahead
