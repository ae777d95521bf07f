/-!
# Decoding bytes

A byte string is a sequence of characters in UTF-8 as long as every character
is complete and in its shortest form. `nextChar` takes one character off the
front; where there is none, it tells how many bytes belong to the broken one.
On top of it, `decode?` reads only well-formed byte strings, and `decodeLossy`
reads all of them, writing the replacement character once for each broken one.
-/

namespace Typeahead

/-- The replacement character, written for bytes that are no character. -/
def replacementChar : Char := '�'

/-- The bytes that may follow the leading byte `b` of a character, as the number
    of bytes still to come and the range of the first of them; `none` when no
    longer character starts with `b`. -/
def continuation? (b : Nat) : Option (Nat × Nat × Nat) :=
  if 0xc2 ≤ b ∧ b ≤ 0xdf then some (1, 0x80, 0xbf)
  else if b = 0xe0 then some (2, 0xa0, 0xbf)
  else if b = 0xed then some (2, 0x80, 0x9f)
  else if 0xe1 ≤ b ∧ b ≤ 0xef then some (2, 0x80, 0xbf)
  else if b = 0xf0 then some (3, 0x90, 0xbf)
  else if 0xf1 ≤ b ∧ b ≤ 0xf3 then some (3, 0x80, 0xbf)
  else if b = 0xf4 then some (3, 0x80, 0x8f)
  else none

/-- The bits that the leading byte of a character of `n + 1` bytes contributes. -/
def leadingBits (n b : Nat) : Nat := b % Nat.pow 2 (6 - n)

/-- Reads `n` more bytes of a character whose bits so far are `acc`, the first
    of them in the range from `lo` to `hi`. Gives the character, if complete,
    and the bytes left. -/
def takeContinuation : Nat → Nat → Nat → Nat → List UInt8 → Option Char × List UInt8
  | 0, _, _, acc, bs => (some (Char.ofNat acc), bs)
  | _ + 1, _, _, _, [] => (none, [])
  | n + 1, lo, hi, acc, b :: bs =>
    if lo ≤ b.toNat ∧ b.toNat ≤ hi then
      takeContinuation n 0x80 0xbf (acc * 64 + b.toNat % 64) bs
    else (none, b :: bs)

theorem length_takeContinuation_le (n lo hi acc : Nat) (bs : List UInt8) :
    (takeContinuation n lo hi acc bs).2.length ≤ bs.length := by
  induction bs generalizing n lo hi acc with
  | nil => cases n <;> simp [takeContinuation]
  | cons b bs ih =>
    cases n with
    | zero => simp [takeContinuation]
    | succ n =>
      rw [takeContinuation]
      split
      · exact Nat.le_succ_of_le (ih ..)
      · exact Nat.le_refl _

/-- The first character of the bytes `b :: bs`, or `none` when they start with
    a broken one, together with the bytes after it. -/
def nextChar (b : UInt8) (bs : List UInt8) : Option Char × List UInt8 :=
  if b.toNat < 0x80 then (some (Char.ofNat b.toNat), bs)
  else
    match continuation? b.toNat with
    | some (n, lo, hi) => takeContinuation n lo hi (leadingBits n b.toNat) bs
    | none => (none, bs)

theorem length_nextChar_le (b : UInt8) (bs : List UInt8) :
    (nextChar b bs).2.length ≤ bs.length := by
  rw [nextChar]
  split
  · exact Nat.le_refl _
  · split
    · exact length_takeContinuation_le ..
    · exact Nat.le_refl _

/-- The characters of a byte string, `none` standing for each broken one. -/
def decodeEach : List UInt8 → List (Option Char)
  | [] => []
  | b :: bs => (nextChar b bs).1 :: decodeEach (nextChar b bs).2
termination_by bs => bs.length
decreasing_by exact Nat.lt_succ_of_le (length_nextChar_le b bs)

/-- The text of a well-formed byte string. -/
def decode? (bs : List UInt8) : Option (List Char) := (decodeEach bs).mapM id

/-- The text of a byte string, with the replacement character for each broken
    character. -/
def decodeLossy (bs : List UInt8) : List Char :=
  (decodeEach bs).map fun c => c.getD replacementChar

end Typeahead
