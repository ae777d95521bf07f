import Typeahead.Proofs.Slice
import Typeahead.Text.Lines

/-!
# Columns

A column counts the UTF-16 units of a line before it, an offset the bytes of a text before it. Both
are found by taking characters from the front while their weight allows it (`takeWeight`). This
module has what holds of any weight, with its total over a text, and the offset of a column.

* `takeWeight_total`: the weight of a leading part gives the part back;
* `takeWeight_eq_self_iff`: when a whole text is taken;
* `offsetInLines_append`: the offset of a column, given the lines before and after its own.
-/

namespace Typeahead

/-! ### Weights -/

section

variable {weight : Char → Nat} {total : List Char → Nat} (hnil : total [] = 0)
  (hcons : ∀ c cs, total (c :: cs) = weight c + total cs)

theorem takeWeight_isPrefix (weight : Char → Nat) (n : Nat) (cs : List Char) :
    takeWeight weight n cs <+: cs := by
  induction cs generalizing n with
  | nil => exact List.prefix_rfl
  | cons c cs ih =>
    rw [takeWeight]
    split
    · exact List.cons_prefix_cons.2 ⟨rfl, ih _⟩
    · exact List.nil_prefix

include hnil hcons

theorem takeWeight_add_append (s t : List Char) (n : Nat) :
    takeWeight weight (total s + n) (s ++ t) = s ++ takeWeight weight n t := by
  induction s with
  | nil => rw [hnil, Nat.zero_add, List.nil_append, List.nil_append]
  | cons c s ih =>
    have hsub : total (c :: s) + n - weight c = total s + n := by
      rw [hcons]
      omega
    have hle : weight c ≤ total (c :: s) + n := by
      rw [hcons]
      omega
    rw [List.cons_append, takeWeight, if_pos hle, hsub, ih, List.cons_append]

/-- The weight of a leading part gives the part back, as every character has some weight. -/
theorem takeWeight_total (hpos : ∀ c, 0 < weight c) (s t : List Char) :
    takeWeight weight (total s) (s ++ t) = s := by
  have hzero : takeWeight weight 0 t = [] := by
    cases t with
    | nil => rfl
    | cons c t => rw [takeWeight, if_neg (Nat.not_le.2 (hpos c))]
  have htaken := takeWeight_add_append hnil hcons s t 0
  rwa [Nat.add_zero, hzero, List.append_nil] at htaken

theorem total_takeWeight_le (n : Nat) (cs : List Char) : total (takeWeight weight n cs) ≤ n := by
  induction cs generalizing n with
  | nil => exact hnil ▸ Nat.zero_le n
  | cons c cs ih =>
    rw [takeWeight]
    split
    · next hle =>
      have hrest := ih (n - weight c)
      rw [hcons]
      omega
    · exact hnil ▸ Nat.zero_le n

theorem takeWeight_eq_self_iff {n : Nat} {cs : List Char} :
    takeWeight weight n cs = cs ↔ total cs ≤ n := by
  refine ⟨fun h => h ▸ total_takeWeight_le hnil hcons n cs, fun hle => ?_⟩
  have htaken := takeWeight_add_append hnil hcons cs [] (n - total cs)
  rwa [Nat.add_sub_cancel' hle, List.append_nil, takeWeight, List.append_nil] at htaken

end

/-! ### Units -/

theorem unitLength_nil : unitLength [] = 0 := rfl

theorem unitLength_cons (c : Char) (cs : List Char) :
    unitLength (c :: cs) = unitCount c + unitLength cs := rfl

theorem unitLength_append (s t : List Char) :
    unitLength (s ++ t) = unitLength s + unitLength t := by
  induction s with
  | nil => exact (Nat.zero_add _).symm
  | cons c s ih => rw [List.cons_append, unitLength_cons, unitLength_cons, ih, Nat.add_assoc]

theorem unitCount_pos (c : Char) : 0 < unitCount c := by
  rw [unitCount]
  split <;> decide

theorem unitCount_le_utf8Size (c : Char) : unitCount c ≤ c.utf8Size := by
  rw [unitCount]
  split
  · exact c.utf8Size_pos
  · next h =>
    have hlarge : 0xffff < c.val := UInt32.lt_iff_toNat_lt.2 (Nat.lt_of_succ_le (Nat.le_of_not_lt h))
    rw [Char.utf8Size_eq_four_iff.2 hlarge]
    decide

theorem unitLength_le_byteLength (cs : List Char) : unitLength cs ≤ byteLength cs := by
  induction cs with
  | nil => exact Nat.le_refl 0
  | cons c cs ih => exact Nat.add_le_add (unitCount_le_utf8Size c) ih

/-! ### Offsets of columns -/

theorem lineText_isPrefix (l : List Char) : lineText l <+: l := by
  rw [← List.reverse_suffix, lineText, List.reverse_reverse]
  exact List.dropWhile_suffix _

theorem offsetInLines_append (character : Nat) (before : List (List Char)) (l : List Char)
    (after : List (List Char)) :
    offsetInLines character before.length (before ++ l :: after) =
      some (byteLength (before.flatten ++ takeWeight unitCount character (lineText l))) := by
  induction before with
  | nil => rfl
  | cons m before ih =>
    rw [List.length_cons, List.cons_append, offsetInLines, ih, List.flatten_cons, List.append_assoc,
      byteLength_append m]
    rfl

theorem offsetInLines_length (character : Nat) (ls : List (List Char)) :
    offsetInLines character ls.length ls = some (byteLength ls.flatten) := by
  induction ls with
  | nil => rfl
  | cons l ls ih =>
    rw [List.length_cons, offsetInLines, ih, List.flatten_cons, byteLength_append]
    rfl

theorem offsetInLines_eq_none {character line : Nat} {ls : List (List Char)}
    (h : ls.length < line) : offsetInLines character line ls = none := by
  induction ls generalizing line with
  | nil =>
    obtain ⟨k, rfl⟩ := Nat.exists_eq_succ_of_ne_zero (Nat.ne_of_gt h)
    rfl
  | cons l ls ih =>
    obtain ⟨k, rfl⟩ := Nat.exists_eq_succ_of_ne_zero (Nat.ne_of_gt (Nat.zero_lt_of_lt h))
    rw [offsetInLines, ih (Nat.lt_of_succ_lt_succ h)]
    rfl

/-- A number below the length of a list splits it around the element with that number. -/
theorem exists_eq_append_cons {α : Type} {xs : List α} {n : Nat} (h : n < xs.length) :
    ∃ before x after, xs = before ++ x :: after ∧ before.length = n :=
  ⟨xs.take n, xs[n], xs.drop (n + 1),
    by rw [← List.drop_eq_getElem_cons h, List.take_append_drop],
    by rw [List.length_take]; omega⟩

end Typeahead
