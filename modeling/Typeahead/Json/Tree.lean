/-!
# Written JSON

Values as they are written to JSON: objects keep the order of their members, and
every level of nesting is indented by two more spaces.
-/

namespace Typeahead

/-- A value that is written to JSON. -/
inductive JsonTree
  | null
  | text (s : String)
  | number (n : Nat)
  | list (items : List JsonTree)
  | object (members : List (String × JsonTree))

namespace JsonTree

/-- A value that may be missing. -/
def ofOption {α : Type} (f : α → JsonTree) : Option α → JsonTree
  | some a => f a
  | none => null

/-- A character as it is written in a string. -/
def escapeChar (c : Char) : List Char :=
  match c with
  | '"' => ['\\', '"']
  | '\\' => ['\\', '\\']
  | '\x08' => ['\\', 'b']
  | '\x0c' => ['\\', 'f']
  | '\n' => ['\\', 'n']
  | '\r' => ['\\', 'r']
  | '\t' => ['\\', 't']
  | c =>
    if c < ' ' then
      ['\\', 'u', '0', '0', Nat.digitChar (c.toNat / 16), Nat.digitChar (c.toNat % 16)]
    else [c]

/-- A string as it is written. -/
def writeText (s : String) : List Char := '"' :: s.toList.flatMap escapeChar ++ ['"']

/-- A new line with an indentation. -/
def newLine (depth : Nat) : List Char := '\n' :: List.replicate (2 * depth) ' '

mutual

/-- The text of a value at a level of nesting. -/
def write (depth : Nat) : JsonTree → List Char
  | null => "null".toList
  | text s => writeText s
  | number n => Nat.toDigits 10 n
  | list [] => ['[', ']']
  | list (v :: vs) => '[' :: writeItems (depth + 1) (v :: vs) ++ newLine depth ++ [']']
  | object [] => ['\x7b', '\x7d']
  | object (m :: ms) =>
    '\x7b' :: writeMembers (depth + 1) (m :: ms) ++ newLine depth ++ ['\x7d']

/-- The texts of the items of a list, each on a line of its own. -/
def writeItems (depth : Nat) : List JsonTree → List Char
  | [] => []
  | [v] => newLine depth ++ write depth v
  | v :: vs => newLine depth ++ write depth v ++ ',' :: writeItems depth vs

/-- The texts of the members of an object, each on a line of its own. -/
def writeMembers (depth : Nat) : List (String × JsonTree) → List Char
  | [] => []
  | [(k, v)] => newLine depth ++ writeText k ++ ':' :: ' ' :: write depth v
  | (k, v) :: ms =>
    newLine depth ++ writeText k ++ ':' :: ' ' :: write depth v ++ ',' :: writeMembers depth ms

end

/-- The text of a value. -/
def render (v : JsonTree) : List Char := v.write 0

end JsonTree

end Typeahead
