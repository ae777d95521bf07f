/-!
# Text measured in bytes

Offsets into a source text count the bytes of its UTF-8 form, while the text
itself is a list of characters. This module relates the two: the length of a
text in bytes, the cut of a text at a byte offset, and the part of a text
between two offsets.

A cut exists only *between* characters: an offset inside a character or past
the end has none (`splitAtByte?`). Reading a part of the text at such an offset
gives the empty text (`slice`).

* `splitAtByte?_append`: cutting after a leading part gives back the part;
* `append_of_splitAtByte?`: the two sides of a cut make up the text, and the
  left one has as many bytes as the offset says.
-/

namespace Typeahead

/-- The number of bytes of the UTF-8 form of a text. -/
def byteLength : List Char → Nat
  | [] => 0
  | c :: cs => c.utf8Size + byteLength cs

@[simp] theorem byteLength_nil : byteLength [] = 0 := rfl

@[simp] theorem byteLength_cons (c : Char) (cs : List Char) :
    byteLength (c :: cs) = c.utf8Size + byteLength cs := rfl

@[simp] theorem byteLength_append (s t : List Char) :
    byteLength (s ++ t) = byteLength s + byteLength t := by
  induction s with
  | nil => simp
  | cons c s ih => simp [ih, Nat.add_assoc]

/-- The text before and after the byte offset `n`; `none` when `n` is inside a
    character or past the end. -/
def splitAtByte? : Nat → List Char → Option (List Char × List Char)
  | 0, cs => some ([], cs)
  | _ + 1, [] => none
  | n + 1, c :: cs =>
    if c.utf8Size ≤ n + 1 then
      (splitAtByte? (n + 1 - c.utf8Size) cs).map fun (s, t) => (c :: s, t)
    else none

theorem splitAtByte?_append (s t : List Char) :
    splitAtByte? (byteLength s) (s ++ t) = some (s, t) := by
  induction s with
  | nil => cases t <;> rfl
  | cons c s ih =>
    have hc : 0 < c.utf8Size := c.utf8Size_pos
    obtain ⟨n, hn⟩ : ∃ n, byteLength (c :: s) = n + 1 :=
      ⟨c.utf8Size + byteLength s - 1, by simp; omega⟩
    have hsub : n + 1 - c.utf8Size = byteLength s := by simp at hn; omega
    have hle : c.utf8Size ≤ n + 1 := by simp at hn; omega
    rw [hn, List.cons_append, splitAtByte?, if_pos hle, hsub, ih]
    rfl

theorem append_of_splitAtByte? {n : Nat} {cs s t : List Char}
    (h : splitAtByte? n cs = some (s, t)) :
    s ++ t = cs ∧ byteLength s = n := by
  induction cs generalizing n s t with
  | nil =>
    cases n with
    | zero => simp only [splitAtByte?, Option.some.injEq, Prod.mk.injEq] at h; simp [← h.1, ← h.2]
    | succ n => simp [splitAtByte?] at h
  | cons c cs ih =>
    cases n with
    | zero => simp only [splitAtByte?, Option.some.injEq, Prod.mk.injEq] at h; simp [← h.1, ← h.2]
    | succ n =>
      rw [splitAtByte?] at h
      split at h
      · next hle =>
        obtain ⟨⟨s', t'⟩, hs', hst⟩ := Option.map_eq_some_iff.1 h
        simp only [Prod.mk.injEq] at hst
        obtain ⟨happ, hlen⟩ := ih hs'
        rw [← hst.1, ← hst.2]
        exact ⟨by simp [happ], by simp only [byteLength_cons]; omega⟩
      · cases h

/-- Whether the byte offset `n` lies between two characters of `cs`, or at one
    of its ends. -/
def isBoundary (cs : List Char) (n : Nat) : Bool := (splitAtByte? n cs).isSome

/-- The part of `cs` from the byte offset `start` up to `stop`; empty when the
    offsets are out of order or one of them is no boundary. -/
def slice (cs : List Char) (start stop : Nat) : List Char :=
  if start ≤ stop then
    match splitAtByte? start cs with
    | some (_, rest) => ((splitAtByte? (stop - start) rest).map Prod.fst).getD []
    | none => []
  else []

/-- The last boundary of `cs` at or before the byte offset `n`. -/
def floorBoundary (cs : List Char) : Nat → Nat
  | 0 => 0
  | n + 1 => if isBoundary cs (n + 1) then n + 1 else floorBoundary cs n

/-- The bytes of the UTF-8 form of a text. -/
def toBytes (cs : List Char) : List UInt8 := cs.flatMap String.utf8EncodeChar

end Typeahead
