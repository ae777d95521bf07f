import Typeahead.Text.Bytes

/-!
# Lines and columns

An editor addresses a text by line and column. Lines end at a line feed, a
carriage return, both in this order, a vertical tab, a form feed, a next-line
character or a line or paragraph separator; the text after the last of them is
a line as well. Columns count UTF-16 units, so that a character outside the
basic plane takes two.

* `flatten_lines`: the lines of a text, with their ends, make up the text.
-/

namespace Typeahead

/-- A place in a text: the number of its line and its column, both from 0. -/
structure Position where
  line : Nat
  character : Nat
  deriving DecidableEq, Repr

/-- Whether `c` ends a line. -/
def isLineBreak (c : Char) : Bool :=
  (10 ≤ c.toNat && c.toNat ≤ 13) || c.toNat == 0x85 || c.toNat == 0x2028 || c.toNat == 0x2029

/-- The lines of a text, each with its end; the last one has none. -/
def lines : List Char → List (List Char)
  | [] => [[]]
  | '\r' :: '\n' :: cs => ['\r', '\n'] :: lines cs
  | c :: cs =>
    if isLineBreak c then [c] :: lines cs
    else
      match lines cs with
      | [] => [[c]]
      | l :: ls => (c :: l) :: ls

theorem flatten_lines (cs : List Char) : (lines cs).flatten = cs := by
  fun_induction lines cs with
  | case1 => rfl
  | case2 cs ih => simp [ih]
  | case3 c cs _ _ ih => simp [ih]
  | case4 c cs _ _ h ih => simp [h] at ih; simp [ih]
  | case5 c cs _ _ l ls h ih => rw [h] at ih; simpa using ih

/-- The number of UTF-16 units of a character. -/
def unitCount (c : Char) : Nat := if c.toNat < 0x10000 then 1 else 2

/-- The number of UTF-16 units of a text. -/
def unitLength (cs : List Char) : Nat := (cs.map unitCount).foldr (· + ·) 0

/-- The longest leading part of a text whose characters weigh at most `n`
    together. -/
def takeWeight (weight : Char → Nat) : Nat → List Char → List Char
  | _, [] => []
  | n, c :: cs => if weight c ≤ n then c :: takeWeight weight (n - weight c) cs else []

/-- A line without the line feed and carriage return at its end. -/
def lineText (l : List Char) : List Char :=
  (l.reverse.dropWhile fun c => c == '\n' || c == '\r').reverse

/-- The byte offset of the column `character` of the line numbered `line` in a
    text that starts with the lines `ls`. A column past the end of the line
    stands for its end, and the line after the last one for the end of the
    text. -/
def offsetInLines (character : Nat) : (line : Nat) → (ls : List (List Char)) → Option Nat
  | 0, [] => some 0
  | _ + 1, [] => none
  | 0, l :: _ => some (byteLength (takeWeight unitCount character (lineText l)))
  | n + 1, l :: ls => (offsetInLines character n ls).map (byteLength l + ·)

/-- The byte offset of a position of the text `cs`. -/
def Position.toOffset? (p : Position) (cs : List Char) : Option Nat :=
  offsetInLines p.character p.line (lines cs)

/-- The position of the byte offset `offset` in a text that consists of the
    lines `ls`, of which the first has the number `line`. An offset inside a
    character stands for the start of the character. -/
def positionInLines (line offset : Nat) : List (List Char) → Option Position
  | [] => none
  | [l] =>
    if offset ≤ byteLength l then
      some ⟨line, unitLength (takeWeight Char.utf8Size offset l)⟩
    else none
  | l :: ls =>
    if offset < byteLength l then some ⟨line, unitLength (takeWeight Char.utf8Size offset l)⟩
    else positionInLines (line + 1) (offset - byteLength l) ls

/-- The position of a byte offset into the text `cs`. The numbers of the line and the
    character are together at most the offset, so 32 bits hold them in every text of less
    than four gigabytes. -/
def Position.ofOffset? (offset : Nat) (cs : List Char) : Option Position :=
  positionInLines 0 offset (lines cs)

end Typeahead
