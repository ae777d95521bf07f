import Typeahead.Text.Bytes

/-!
# Faults of JSON texts

A fault is what is wrong with a text and where: the number of bytes after the
place. A text is read byte by byte, so a fault in a character lies after the
first byte of the character, however many bytes it has.
-/

namespace Typeahead

/-- What is wrong with a JSON text. -/
inductive JsonProblem
  | endInList
  | endInObject
  | endInString
  | endInValue
  | colonMissing
  | listEndMissing
  | objectEndMissing
  | wordMissing
  | valueMissing
  | keyMissing
  | badEscape
  | badNumber
  | numberTooLarge
  | controlCharacter
  | loneSurrogate
  | endOfEscape
  | trailingComma
  | trailingCharacters
  /-- A field that occurs twice. -/
  | repeatedField (field : String)
  /-- A value of another type than expected. -/
  | wrongType (found expected : String)
  /-- A value of the expected type that is not allowed. -/
  | wrongValue (found expected : String)
  deriving DecidableEq, Repr

/-- The wording of a problem. -/
def JsonProblem.message : JsonProblem → String
  | endInList => "EOF while parsing a list"
  | endInObject => "EOF while parsing an object"
  | endInString => "EOF while parsing a string"
  | endInValue => "EOF while parsing a value"
  | colonMissing => "expected `:`"
  | listEndMissing => "expected `,` or `]`"
  | objectEndMissing => "expected `,` or `\x7d`"
  | wordMissing => "expected ident"
  | valueMissing => "expected value"
  | keyMissing => "key must be a string"
  | badEscape => "invalid escape"
  | badNumber => "invalid number"
  | numberTooLarge => "number out of range"
  | controlCharacter => "control character (\\u0000-\\u001F) found while parsing a string"
  | loneSurrogate => "lone leading surrogate in hex escape"
  | endOfEscape => "unexpected end of hex escape"
  | trailingComma => "trailing comma"
  | trailingCharacters => "trailing characters"
  | repeatedField field => "duplicate field `" ++ field ++ "`"
  | wrongType found expected => "invalid type: " ++ found ++ ", expected " ++ expected
  | wrongValue found expected => "invalid value: " ++ found ++ ", expected " ++ expected

/-- A problem and the number of bytes that are left after its place. -/
structure JsonFault where
  problem : JsonProblem
  left : Nat
  deriving DecidableEq, Repr

namespace JsonFault

/-- A problem with what has been read, `cs` being left. -/
def before (p : JsonProblem) (cs : List Char) : JsonFault := ⟨p, byteLength cs⟩

/-- A problem with the next character of `cs`, of which one byte is read. -/
def next (p : JsonProblem) (cs : List Char) : JsonFault := ⟨p, byteLength cs - 1⟩

/-- The wording of a fault of the text `cs`, with the line and the column of its
    place, a column being a byte. -/
def message (e : JsonFault) (cs : List Char) : String :=
  let before := (toBytes cs).take (byteLength cs - e.left)
  let line := before.count 10 + 1
  let column := (before.reverse.takeWhile (· != 10)).length
  e.problem.message ++ " at line " ++ toString line ++ " column " ++ toString column

end JsonFault

/-- A reader of JSON: a value and the text after it. -/
abbrev JsonReader (α : Type) := List Char → Except JsonFault (α × List Char)

/-- Whether a character is skipped between the parts of a JSON text. -/
def isJsonBlank (c : Char) : Bool := c == ' ' || c == '\n' || c == '\t' || c == '\r'

/-- The text without the blanks at its start. -/
def skipJsonBlanks (cs : List Char) : List Char := cs.dropWhile isJsonBlank

end Typeahead
