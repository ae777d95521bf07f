/-!
# Ranges of code points

A property of characters is given by the ranges of the code points that have
it, disjoint and in increasing order.
-/

namespace Typeahead

/-- Whether the code point of `c` lies in one of the ranges `rs`, each given by
    its first and its last code point, in increasing order. -/
def inRanges (rs : List (Nat × Nat)) (c : Char) : Bool :=
  match rs with
  | [] => false
  | (lo, hi) :: rs => if c.toNat ≤ hi then lo ≤ c.toNat else inRanges rs c

end Typeahead
