import Typeahead.Json.Fault

/-!
# Strings of JSON texts

A string is read with its escapes undone. A string that nobody asks for is only
skipped: then the halves of a surrogate pair need not fit together.
-/

namespace Typeahead

namespace JsonStr

/-- The value of a hexadecimal digit. -/
def hexDigit? (c : Char) : Option Nat :=
  if '0' ≤ c ∧ c ≤ '9' then some (c.toNat - '0'.toNat)
  else if 'a' ≤ c ∧ c ≤ 'f' then some (c.toNat - 'a'.toNat + 10)
  else if 'A' ≤ c ∧ c ≤ 'F' then some (c.toNat - 'A'.toNat + 10)
  else none

/-- The number that four hexadecimal digits write. -/
def readHex : JsonReader Nat := fun cs =>
  if byteLength cs < 4 then .error ⟨.endInString, 0⟩
  else
    match (cs.take 4).mapM hexDigit? with
    | some ds => .ok (ds.foldl (fun n d => n * 16 + d) 0, cs.drop 4)
    | none => .error ⟨.badEscape, byteLength cs - 4⟩

/-- Whether a number is the first half of a surrogate pair. -/
def isHighHalf (n : Nat) : Bool := 0xD800 ≤ n && n ≤ 0xDBFF

/-- Whether a number is the second half of a surrogate pair. -/
def isLowHalf (n : Nat) : Bool := 0xDC00 ≤ n && n ≤ 0xDFFF

/-- The second half of a surrogate pair, written as an escape of its own. -/
def readLowHalf : JsonReader Nat
  | '\\' :: 'u' :: cs => do
    let (n, cs) ← readHex cs
    if isLowHalf n then return (n, cs) else .error (.before .loneSurrogate cs)
  | ['\\'] => .error ⟨.endInString, 0⟩
  | '\\' :: cs => .error (.next .endOfEscape cs)
  | [] => .error ⟨.endInString, 0⟩
  | cs => .error (.next .endOfEscape cs)

/-- The character that an escape by number writes. -/
def readCode : JsonReader Char := fun cs => do
  let (n, cs) ← readHex cs
  if isLowHalf n then .error (.before .loneSurrogate cs)
  else if isHighHalf n then
    let (m, cs) ← readLowHalf cs
    return (Char.ofNat (0x10000 + (n - 0xD800) * 0x400 + (m - 0xDC00)), cs)
  else return (Char.ofNat n, cs)

/-- The character that a letter after a backslash stands for. -/
def plainEscape? : Char → Option Char
  | '"' => some '"'
  | '\\' => some '\\'
  | '/' => some '/'
  | 'b' => some '\x08'
  | 'f' => some '\x0c'
  | 'n' => some '\n'
  | 'r' => some '\r'
  | 't' => some '\t'
  | _ => none

/-- The character that an escape writes, after its backslash. -/
def readEscape : JsonReader Char
  | [] => .error ⟨.endInString, 0⟩
  | 'u' :: cs => readCode cs
  | c :: cs =>
    match plainEscape? c with
    | some d => .ok (d, cs)
    | none => .error (.next .badEscape (c :: cs))

/-- The text after an escape, after its backslash. -/
def skipEscape : JsonReader Unit
  | [] => .error ⟨.endInString, 0⟩
  | 'u' :: cs => (readHex cs).map fun (_, cs) => ((), cs)
  | c :: cs =>
    if (plainEscape? c).isSome then .ok ((), cs) else .error (.next .badEscape (c :: cs))

/-- The characters up to the closing quote, in at most `n` steps. -/
def readChars : Nat → JsonReader (List Char)
  | 0, cs => .error (.before .endInString cs)
  | _ + 1, [] => .error ⟨.endInString, 0⟩
  | _ + 1, '"' :: cs => .ok ([], cs)
  | n + 1, '\\' :: cs => do
    let (c, cs) ← readEscape cs
    let (s, cs) ← readChars n cs
    return (c :: s, cs)
  | n + 1, c :: cs =>
    if c < ' ' then .error (.next .controlCharacter (c :: cs))
    else do
      let (s, cs) ← readChars n cs
      return (c :: s, cs)

/-- The text after the closing quote, in at most `n` steps. -/
def skipChars : Nat → JsonReader Unit
  | 0, cs => .error (.before .endInString cs)
  | _ + 1, [] => .error ⟨.endInString, 0⟩
  | _ + 1, '"' :: cs => .ok ((), cs)
  | n + 1, '\\' :: cs => do
    let ((), cs) ← skipEscape cs
    skipChars n cs
  | n + 1, c :: cs =>
    if c < ' ' then .error (.before .controlCharacter (c :: cs)) else skipChars n cs

/-- Reads a string after its opening quote. -/
def read : JsonReader (List Char) := fun cs => readChars (cs.length + 1) cs

/-- Skips a string after its opening quote. -/
def skip : JsonReader Unit := fun cs => skipChars (cs.length + 1) cs

end JsonStr

end Typeahead
