import Typeahead.Json.Number
import Typeahead.Json.Str
import Typeahead.Text.Quoted

/-!
# Values of JSON texts

The parts of a JSON text are read where a certain type is expected. A value of
another type is described in the message, and a value that nobody asks for is
skipped, however deep it is.
-/

namespace Typeahead

namespace JsonValue

/-- Reads the rest of a word such as `true`. -/
def readWord : List Char → JsonReader Unit
  | [], cs => .ok ((), cs)
  | _ :: _, [] => .error (.before .endInValue [])
  | w :: ws, c :: cs => if c = w then readWord ws cs else .error (.next .wordMissing (c :: cs))

/-- The fault of a value that stands where `expected` should be. -/
def wrongType (expected : String) (cs : List Char) : JsonFault :=
  let found := fun (what : String) rest => JsonFault.before (.wrongType what expected) rest
  let fault : Except JsonFault JsonFault :=
    match cs with
    | 'n' :: cs => (readWord "ull".toList cs).map fun (_, rest) => found "null" rest
    | 't' :: cs => (readWord "rue".toList cs).map fun (_, rest) => found "boolean `true`" rest
    | 'f' :: cs => (readWord "alse".toList cs).map fun (_, rest) => found "boolean `false`" rest
    | '-' :: cs => (JsonNumber.read true cs).map fun (n, rest) => found n.describe rest
    | '"' :: cs =>
      (JsonStr.read cs).map fun (s, rest) => found ("string " ++ String.ofList (quote s)) rest
    | '[' :: _ => .ok (found "sequence" cs)
    | '\x7b' :: _ => .ok (found "map" cs)
    | c :: _ =>
      if c.isDigit then (JsonNumber.read false cs).map fun (n, rest) => found n.describe rest
      else .ok (.next .valueMissing cs)
    | [] => .ok (.next .valueMissing [])
  match fault with
  | .ok e => e
  | .error e => e

/-- Reads a string. -/
def readText : JsonReader String := fun cs =>
  match skipJsonBlanks cs with
  | [] => .error (.next .endInValue [])
  | '"' :: cs => (JsonStr.read cs).map fun (s, rest) => (String.ofList s, rest)
  | cs => .error (wrongType "a string" cs)

/-- The natural number that a number is. -/
def natOf (rest : List Char) : JsonNumber → Except JsonFault Nat
  | .natural n => .ok n
  | .negative n => .error (.before (.wrongValue (JsonNumber.negative n).describe "usize") rest)
  | .fraction x => .error (.before (.wrongType (JsonNumber.fraction x).describe "usize") rest)

/-- Reads a natural number of 64 bits. -/
def readNat : JsonReader Nat := fun cs =>
  match skipJsonBlanks cs with
  | [] => .error (.next .endInValue [])
  | '-' :: cs => do
    let (n, rest) ← JsonNumber.read true cs
    return (← natOf rest n, rest)
  | c :: cs =>
    if c.isDigit then do
      let (n, rest) ← JsonNumber.read false (c :: cs)
      return (← natOf rest n, rest)
    else .error (wrongType "usize" (c :: cs))

/-- Reads a natural number of 64 bits or the word `null`. -/
def readNat? : JsonReader (Option Nat) := fun cs =>
  match skipJsonBlanks cs with
  | 'n' :: cs => (readWord "ull".toList cs).map fun (_, rest) => (none, rest)
  | _ => (readNat cs).map fun (n, rest) => (some n, rest)

/-- A collection that is still open while values in it are skipped. -/
inductive Frame
  | list
  | object
  deriving DecidableEq, Repr

/-- Skips the key of an object and the colon after it. -/
def skipKey : JsonReader Unit := fun cs =>
  match skipJsonBlanks cs with
  | '"' :: cs => do
    let ((), cs) ← JsonStr.skip cs
    match skipJsonBlanks cs with
    | ':' :: cs => return ((), cs)
    | [] => .error (.next .endInObject [])
    | cs => .error (.next .colonMissing cs)
  | [] => .error (.next .endInObject [])
  | cs => .error (.next .keyMissing cs)

/-- The start of a value: the collection it opens, if it is not over yet. -/
def skipStart : JsonReader (Option Frame) := fun cs =>
  match skipJsonBlanks cs with
  | 'n' :: cs => (readWord "ull".toList cs).map fun (_, rest) => (none, rest)
  | 't' :: cs => (readWord "rue".toList cs).map fun (_, rest) => (none, rest)
  | 'f' :: cs => (readWord "alse".toList cs).map fun (_, rest) => (none, rest)
  | '-' :: cs => (JsonNumber.skip cs).map fun (_, rest) => (none, rest)
  | '"' :: cs => (JsonStr.skip cs).map fun (_, rest) => (none, rest)
  | '[' :: cs => .ok (some .list, cs)
  | '\x7b' :: cs => .ok (some .object, cs)
  | c :: cs =>
    if c.isDigit then (JsonNumber.skip (c :: cs)).map fun (_, rest) => (none, rest)
    else .error (.next .valueMissing (c :: cs))
  | [] => .error (.next .endInValue [])

/-- Goes to the next value of the innermost of the open collections `frames`, or
    out of those that end, in at most `n` steps. A comma is needed if
    `afterValue`. -/
def skipBetween (afterValue : Bool) : Nat → List Frame → JsonReader (List Frame)
  | 0, frames, cs => .ok (frames, cs)
  | _ + 1, [], cs => .ok ([], cs)
  | n + 1, frame :: frames, cs =>
    let rest := skipJsonBlanks cs
    let enter := fun cs =>
      match frame with
      | .list => .ok (frame :: frames, cs)
      | .object => (skipKey cs).map fun (_, rest) => (frame :: frames, rest)
    match rest, frame with
    | [], .list => .error (.next .endInList [])
    | [], .object => .error (.next .endInObject [])
    | ']' :: cs, .list => skipBetween true n frames cs
    | '\x7d' :: cs, .object => skipBetween true n frames cs
    | c :: cs, _ =>
      if !afterValue then enter rest
      else if c = ',' then enter cs
      else
        match frame with
        | .list => .error (.next .listEndMissing rest)
        | .object => .error (.next .objectEndMissing rest)

/-- Skips values until the collections `frames` are all over, in at most `n`
    steps. -/
def skipAll : Nat → List Frame → JsonReader Unit
  | 0, _, cs => .ok ((), cs)
  | n + 1, frames, cs => do
    let (opened, cs) ← skipStart cs
    let (frames, cs) ←
      match opened with
      | some frame => skipBetween false (cs.length + 1) (frame :: frames) cs
      | none => skipBetween true (cs.length + 1) frames cs
    if frames.isEmpty then return ((), cs) else skipAll n frames cs

/-- Skips a value. -/
def skip : JsonReader Unit := fun cs => skipAll (cs.length + 1) [] cs

end JsonValue

end Typeahead
