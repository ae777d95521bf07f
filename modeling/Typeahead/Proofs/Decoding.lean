import Typeahead.Text.Bytes
import Typeahead.Text.Decoding

/-!
# Decoding what was encoded

The bytes of a character determine it, whatever follows them: the leading byte
tells how many bytes continue it, and the range of the first of these rules out
longer forms and the code points that are no characters.

* `nextChar_utf8EncodeChar`: the bytes of a character are read as the character;
* `decodeLossy_toBytes`: the bytes of a text are read as the text.
-/

namespace Typeahead

theorem toNat_ofNat_of_lt {n : Nat} (h : n < 256) : (UInt8.ofNat n).toNat = n := by
  rw [UInt8.toNat_ofNat', Nat.mod_eq_of_lt h]

/-- A continuing byte adds its six bits. -/
theorem takeContinuation_succ {n lo hi acc m : Nat} (hlo : lo ≤ m) (hhi : m ≤ hi) (hm : m < 256)
    (bs : List UInt8) :
    takeContinuation (n + 1) lo hi acc (UInt8.ofNat m :: bs) =
      takeContinuation n 0x80 0xbf (acc * 64 + m % 64) bs := by
  rw [takeContinuation, toNat_ofNat_of_lt hm, if_pos ⟨hlo, hhi⟩]

/-- The leading byte `m` of a character, followed by `bs`. -/
theorem nextChar_of_continuation? {m n lo hi : Nat} (hm : m < 256) (hlead : 0x80 ≤ m)
    (h : continuation? m = some (n, lo, hi)) (bs : List UInt8) :
    nextChar (UInt8.ofNat m) bs = takeContinuation n lo hi (leadingBits n m) bs := by
  rw [nextChar, toNat_ofNat_of_lt hm, if_neg (Nat.not_lt.2 hlead), h]

/-! ### Characters by their number of bytes -/

section Bytes

variable {v : Nat} (rest : List UInt8)

theorem nextChar_of_le_one (h : v ≤ 0x7f) :
    nextChar (UInt8.ofNat v) rest = (some (Char.ofNat v), rest) := by
  rw [nextChar, toNat_ofNat_of_lt (by omega), if_pos (by omega)]

theorem nextChar_of_le_two (h : 0x7f < v) (h' : v ≤ 0x7ff) :
    nextChar (UInt8.ofNat (v / 64 % 0x20 + 0xc0)) (UInt8.ofNat (v % 0x40 + 0x80) :: rest) =
      (some (Char.ofNat v), rest) := by
  have hlead : continuation? (v / 64 % 0x20 + 0xc0) = some (1, 0x80, 0xbf) := by
    rw [continuation?, if_pos (by omega)]
  have hbits : leadingBits 1 (v / 64 % 0x20 + 0xc0) * 64 + (v % 0x40 + 0x80) % 64 = v := by
    have hmod : leadingBits 1 (v / 64 % 0x20 + 0xc0) = (v / 64 % 0x20 + 0xc0) % 32 := rfl
    omega
  rw [nextChar_of_continuation? (by omega) (by omega) hlead,
    takeContinuation_succ (by omega) (by omega) (by omega), hbits, takeContinuation]

/-- The second of three bytes is in the range that the first leaves for it. -/
theorem exists_continuation?_three (h : 0x7ff < v) (h' : v ≤ 0xffff)
    (hvalid : v < 0xd800 ∨ 0xdfff < v) :
    ∃ lo hi, continuation? (v / 4096 % 0x10 + 0xe0) = some (2, lo, hi) ∧
      lo ≤ v / 64 % 0x40 + 0x80 ∧ v / 64 % 0x40 + 0x80 ≤ hi := by
  rw [continuation?, if_neg (by omega)]
  split
  · exact ⟨0xa0, 0xbf, rfl, by omega, by omega⟩
  split
  · exact ⟨0x80, 0x9f, rfl, by omega, by omega⟩
  rw [if_pos (by omega)]
  exact ⟨0x80, 0xbf, rfl, by omega, by omega⟩

theorem nextChar_of_le_three (h : 0x7ff < v) (h' : v ≤ 0xffff)
    (hvalid : v < 0xd800 ∨ 0xdfff < v) :
    nextChar (UInt8.ofNat (v / 4096 % 0x10 + 0xe0)) (UInt8.ofNat (v / 64 % 0x40 + 0x80) ::
      UInt8.ofNat (v % 0x40 + 0x80) :: rest) = (some (Char.ofNat v), rest) := by
  obtain ⟨lo, hi, hlead, hlo, hhi⟩ := exists_continuation?_three h h' hvalid
  have hbits : (leadingBits 2 (v / 4096 % 0x10 + 0xe0) * 64 + (v / 64 % 0x40 + 0x80) % 64) * 64 +
      (v % 0x40 + 0x80) % 64 = v := by
    have hmod : leadingBits 2 (v / 4096 % 0x10 + 0xe0) = (v / 4096 % 0x10 + 0xe0) % 16 := rfl
    omega
  rw [nextChar_of_continuation? (by omega) (by omega) hlead,
    takeContinuation_succ hlo hhi (by omega),
    takeContinuation_succ (by omega) (by omega) (by omega), hbits, takeContinuation]

/-- The second of four bytes is in the range that the first leaves for it. -/
theorem exists_continuation?_four (h : 0xffff < v) (h' : v < 0x110000) :
    ∃ lo hi, continuation? (v / 262144 % 0x08 + 0xf0) = some (3, lo, hi) ∧
      lo ≤ v / 4096 % 0x40 + 0x80 ∧ v / 4096 % 0x40 + 0x80 ≤ hi := by
  rw [continuation?, if_neg (by omega), if_neg (by omega), if_neg (by omega), if_neg (by omega)]
  split
  · exact ⟨0x90, 0xbf, rfl, by omega, by omega⟩
  split
  · exact ⟨0x80, 0xbf, rfl, by omega, by omega⟩
  rw [if_pos (by omega)]
  exact ⟨0x80, 0x8f, rfl, by omega, by omega⟩

theorem nextChar_of_le_four (h : 0xffff < v) (h' : v < 0x110000) :
    nextChar (UInt8.ofNat (v / 262144 % 0x08 + 0xf0)) (UInt8.ofNat (v / 4096 % 0x40 + 0x80) ::
      UInt8.ofNat (v / 64 % 0x40 + 0x80) :: UInt8.ofNat (v % 0x40 + 0x80) :: rest) =
      (some (Char.ofNat v), rest) := by
  obtain ⟨lo, hi, hlead, hlo, hhi⟩ := exists_continuation?_four h h'
  have hbits : ((leadingBits 3 (v / 262144 % 0x08 + 0xf0) * 64 +
      (v / 4096 % 0x40 + 0x80) % 64) * 64 + (v / 64 % 0x40 + 0x80) % 64) * 64 + (v % 0x40 + 0x80) % 64 = v := by
    have hmod : leadingBits 3 (v / 262144 % 0x08 + 0xf0) = (v / 262144 % 0x08 + 0xf0) % 8 := rfl
    omega
  rw [nextChar_of_continuation? (by omega) (by omega) hlead,
    takeContinuation_succ hlo hhi (by omega),
    takeContinuation_succ (by omega) (by omega) (by omega),
    takeContinuation_succ (by omega) (by omega) (by omega), hbits, takeContinuation]

end Bytes

/-- A character is read from its bytes. -/
theorem nextChar_utf8EncodeChar (c : Char) :
    ∃ b bs, String.utf8EncodeChar c = b :: bs ∧
      ∀ rest, nextChar b (bs ++ rest) = (some c, rest) := by
  have hc : Char.ofNat c.val.toNat = c := Char.ofNat_toNat c
  have hvalid : c.val.toNat < 0xd800 ∨ 0xdfff < c.val.toNat ∧ c.val.toNat < 0x110000 := c.valid
  rw [String.utf8EncodeChar]
  generalize c.val.toNat = v at hc hvalid ⊢
  rw [← hc]
  split
  · next h => exact ⟨_, _, rfl, fun rest => nextChar_of_le_one rest h⟩
  next h1 =>
  split
  · next h => exact ⟨_, _, rfl, fun rest => nextChar_of_le_two rest (by omega) h⟩
  next h2 =>
  split
  · next h => exact ⟨_, _, rfl, fun rest => nextChar_of_le_three rest (by omega) h (by omega)⟩
  · next h => exact ⟨_, _, rfl, fun rest => nextChar_of_le_four rest (by omega) (by omega)⟩

theorem decodeEach_toBytes (cs : List Char) : decodeEach (toBytes cs) = cs.map some := by
  induction cs with
  | nil => rw [toBytes, List.flatMap_nil, decodeEach, List.map_nil]
  | cons c cs ih =>
    obtain ⟨b, bs, hbytes, hnext⟩ := nextChar_utf8EncodeChar c
    rw [toBytes, List.flatMap_cons, hbytes, List.cons_append, decodeEach, hnext, List.map_cons]
    exact congrArg (some c :: ·) ih

/-- The bytes of a text are read as the text. -/
theorem decodeLossy_toBytes (cs : List Char) : decodeLossy (toBytes cs) = cs := by
  rw [decodeLossy, decodeEach_toBytes, List.map_map]
  exact List.map_id cs

end Typeahead
