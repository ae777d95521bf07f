/-!
# Decimal numbers

Numbers as they are written: a natural number padded with zeros, and a ratio
in the interval from 0 to 1 with six decimals. The ratio is first rounded to a
binary fraction of 53 significant bits and that fraction to six decimals, a
tie going to the even neighbour both times.
-/

namespace Typeahead

/-- The quotient of `n` by `d` rounded to the nearest natural number, a tie
    going to the even one. -/
def roundDiv (n d : Nat) : Nat :=
  let q := n / d
  let r := n % d
  if 2 * r < d ∨ (2 * r = d ∧ q % 2 = 0) then q else q + 1

/-- The decimal digits of `n`, with zeros in front up to the given width. -/
def padded (width n : Nat) : List Char :=
  let ds := Nat.toDigits 10 n
  List.replicate (width - ds.length) '0' ++ ds

/-- The power of two that brings the ratio `n / d`, between 0 and 1, to 53
    significant bits. -/
def binaryScale (n d : Nat) : Nat :=
  let e := 53 + d.log2 - n.log2
  if n * Nat.pow 2 e / d < Nat.pow 2 53 then e else e - 1

/-- The ratio `n / d` of a part to its whole, with six decimals. -/
def sixDecimals (n d : Nat) : List Char :=
  let e := binaryScale n d
  let millionths := roundDiv (roundDiv (n * Nat.pow 2 e) d * Nat.pow 10 6) (Nat.pow 2 e)
  Nat.toDigits 10 (millionths / Nat.pow 10 6) ++ '.' :: padded 6 (millionths % Nat.pow 10 6)

end Typeahead
