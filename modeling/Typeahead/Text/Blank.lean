/-!
# Blank characters

The characters that separate forms without being part of any: those with the
Unicode property *White_Space*. Trimming removes them from both ends of a text.
-/

namespace Typeahead

/-- Whether `c` is white space: a control character from tab to carriage
    return, a space of any width, or a line or paragraph separator. -/
def isBlank (c : Char) : Bool :=
  let n := c.toNat
  (9 ≤ n && n ≤ 13) || n == 0x20 || n == 0x85 || n == 0xa0 || n == 0x1680 ||
    (0x2000 ≤ n && n ≤ 0x200a) || n == 0x2028 || n == 0x2029 || n == 0x202f || n == 0x205f ||
    n == 0x3000

/-- The text without blanks at its start. -/
def trimStart (cs : List Char) : List Char := cs.dropWhile isBlank

/-- The text without blanks at either end. -/
def trim (cs : List Char) : List Char := (trimStart (trimStart cs).reverse).reverse

end Typeahead
