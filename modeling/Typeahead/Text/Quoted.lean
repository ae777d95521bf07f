import Typeahead.Text.PrintTables

/-!
# Quoted text

A text between double quotes, in which everything that would not show as
itself is written as an escape: the quote, the backslash and the usual control
characters by a letter, and every other invisible or joining character by its
code point in hexadecimal.
-/

namespace Typeahead

/-- The escape of a character by its code point. -/
def escapeCodePoint (c : Char) : List Char :=
  ['\\', 'u', '\x7b'] ++ Nat.toDigits 16 c.toNat ++ ['\x7d']

/-- A character as it is written between double quotes. -/
def quoteChar (c : Char) : List Char :=
  match c with
  | '\x00' => ['\\', '0']
  | '\t' => ['\\', 't']
  | '\r' => ['\\', 'r']
  | '\n' => ['\\', 'n']
  | '"' => ['\\', '"']
  | '\\' => ['\\', '\\']
  | c =>
    if inRanges extendingRanges c || inRanges invisibleRanges c then escapeCodePoint c else [c]

/-- A text between double quotes. -/
def quote (cs : List Char) : List Char := '"' :: cs.flatMap quoteChar ++ ['"']

end Typeahead
