import Typeahead.Text.Bytes

/-!
# Parts of a text

Where a part of a text stands is given by the number of bytes before it
(`StandsAt`). Such a part is what a slice between its two ends gives back.

* `StandsAt.slice_eq`: the slice over a part is the part;
* `StandsAt.append`: the two halves of a part stand one after the other;
* `slice_append_left`: a slice inside the first of two texts does not depend on
  the second one;
* `slice_append_right`: a slice inside the second of two texts is found further
  on, by the length of the first one.
-/

namespace Typeahead

theorem byteLength_pos {cs : List Char} (h : cs ≠ []) : 0 < byteLength cs := by
  cases cs with
  | nil => exact absurd rfl h
  | cons c cs =>
    have hc := c.utf8Size_pos
    rw [byteLength_cons]
    omega

/-- A text is cut in one way at a given byte. -/
theorem append_inj_of_byteLength {a a' b b' : List Char} (h : a ++ b = a' ++ b')
    (hlength : byteLength a = byteLength a') : a = a' ∧ b = b' := by
  have hcut := splitAtByte?_append a b
  rw [h, hlength, splitAtByte?_append] at hcut
  obtain ⟨ha, hb⟩ := Prod.mk.inj (Option.some.inj hcut)
  exact ⟨ha.symm, hb.symm⟩

/-- The text `part` is the part of `cs` that begins at the byte offset `start`. -/
def StandsAt (cs : List Char) (start : Nat) (part : List Char) : Prop :=
  ∃ before after, cs = before ++ (part ++ after) ∧ byteLength before = start

theorem standsAt_self (cs : List Char) : StandsAt cs 0 cs := ⟨[], [], by simp, rfl⟩

namespace StandsAt

variable {cs part s t : List Char} {start : Nat}

theorem append (h : StandsAt cs start (s ++ t)) :
    StandsAt cs start s ∧ StandsAt cs (start + byteLength s) t := by
  obtain ⟨before, after, rfl, rfl⟩ := h
  refine ⟨⟨before, t ++ after, by simp, rfl⟩, ⟨before ++ s, after, by simp, by simp⟩⟩

/-- Texts that follow each other make up one text. -/
theorem trans (hs : StandsAt cs start s) (ht : StandsAt cs (start + byteLength s) t) :
    StandsAt cs start (s ++ t) := by
  obtain ⟨before, after, hcs, rfl⟩ := hs
  obtain ⟨before', after', hcs', hlen⟩ := ht
  rw [← byteLength_append] at hlen
  obtain ⟨-, rfl⟩ := append_inj_of_byteLength
    (hcs'.symm.trans (hcs.trans (List.append_assoc ..).symm)) hlen
  exact ⟨before, after', by rw [hcs, List.append_assoc], rfl⟩

theorem isBoundary_start (h : StandsAt cs start part) : isBoundary cs start = true := by
  obtain ⟨before, after, rfl, rfl⟩ := h
  rw [isBoundary, splitAtByte?_append]
  rfl

theorem isBoundary_stop (h : StandsAt cs start part) :
    isBoundary cs (start + byteLength part) = true := by
  obtain ⟨before, after, rfl, rfl⟩ := h
  rw [isBoundary, ← byteLength_append, ← List.append_assoc, splitAtByte?_append]
  rfl

theorem slice_eq (h : StandsAt cs start part) :
    slice cs start (start + byteLength part) = part := by
  obtain ⟨before, after, rfl, rfl⟩ := h
  rw [slice, if_pos (Nat.le_add_right ..), splitAtByte?_append, Nat.add_sub_cancel_left]
  simp only [splitAtByte?_append, Option.map_some, Option.getD_some]

end StandsAt

/-- A cut inside the first of two texts leaves the second one whole. -/
theorem splitAtByte?_append_left {n : Nat} {s : List Char} (t : List Char)
    (hn : n ≤ byteLength s) :
    splitAtByte? n (s ++ t) = (splitAtByte? n s).map fun p => (p.1, p.2 ++ t) := by
  induction s generalizing n with
  | nil =>
    obtain rfl : n = 0 := Nat.le_zero.1 hn
    cases t <;> rfl
  | cons c s ih =>
    cases n with
    | zero => rfl
    | succ n =>
      rw [List.cons_append, splitAtByte?, splitAtByte?]
      split
      · rw [ih (by rw [byteLength_cons] at hn; omega), Option.map_map, Option.map_map]
        rfl
      · rfl

theorem slice_append_left {s : List Char} (t : List Char) {start stop : Nat}
    (hstop : stop ≤ byteLength s) : slice (s ++ t) start stop = slice s start stop := by
  rw [slice, slice]
  split
  · next hle =>
    rw [splitAtByte?_append_left t (Nat.le_trans hle hstop)]
    cases hcut : splitAtByte? start s with
    | none => rfl
    | some p =>
      obtain ⟨before, rest⟩ := p
      obtain ⟨rfl, hlen⟩ := append_of_splitAtByte? hcut
      rw [byteLength_append] at hstop
      simp only [Option.map_some]
      rw [splitAtByte?_append_left t (by omega), Option.map_map]
      rfl
  · rfl

/-- A cut inside the second of two texts leaves the first one whole. -/
theorem splitAtByte?_append_right (n : Nat) (s t : List Char) :
    splitAtByte? (byteLength s + n) (s ++ t) =
      (splitAtByte? n t).map fun p => (s ++ p.1, p.2) := by
  induction s with
  | nil => simp
  | cons c s ih =>
    have hc := c.utf8Size_pos
    obtain ⟨m, hm⟩ : ∃ m, byteLength (c :: s) + n = m + 1 :=
      ⟨c.utf8Size + byteLength s + n - 1, by rw [byteLength_cons]; omega⟩
    have hsub : m + 1 - c.utf8Size = byteLength s + n := by rw [byteLength_cons] at hm; omega
    have hle : c.utf8Size ≤ m + 1 := by rw [byteLength_cons] at hm; omega
    rw [hm, List.cons_append, splitAtByte?, if_pos hle, hsub, ih, Option.map_map]
    rfl

theorem slice_append_right (s t : List Char) (start stop : Nat) :
    slice (s ++ t) (start + byteLength s) (stop + byteLength s) = slice t start stop := by
  rw [slice, slice]
  by_cases hle : start ≤ stop
  · rw [if_pos hle, if_pos (Nat.add_le_add_right hle _), Nat.add_comm start,
      splitAtByte?_append_right]
    cases splitAtByte? start t with
    | none => rfl
    | some p =>
      have hsub : stop + byteLength s - (byteLength s + start) = stop - start := by omega
      simp only [Option.map_some, hsub]
  · rw [if_neg hle, if_neg fun h => hle (Nat.le_of_add_le_add_right h)]

end Typeahead
