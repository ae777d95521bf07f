import Typeahead.Json.Fault
import Typeahead.Text.Shortest

/-!
# Numbers of JSON texts

A whole number that fits 64 bits keeps its value. Every other number becomes a
double: its first digits, as many as fit 64 bits, times a power of ten.
-/

namespace Typeahead

/-- A number as it is read. -/
inductive JsonNumber
  | natural (n : Nat)
  /-- The number `-n`. -/
  | negative (n : Nat)
  | fraction (x : Float)

namespace JsonNumber

/-- What a number is called in a message. -/
def describe : JsonNumber → String
  | natural n => "integer `" ++ toString n ++ "`"
  | negative n => "integer `-" ++ toString n ++ "`"
  | fraction x => "floating point `" ++ String.ofList (shortestText x) ++ "`"

/-- The number that the digits `ds` write after the number `n`, as far as it fits
    64 bits, and how many digits are left out. -/
def extend (n : Nat) : List Char → Nat × Nat
  | [] => (n, 0)
  | d :: ds =>
    let m := n * 10 + (d.toNat - '0'.toNat)
    if m < Nat.pow 2 64 then extend m ds else (n, ds.length + 1)

/-- The double nearest to `x * 10 ^ e`, going down in at most `n` steps. -/
def scaleDown (x : Float) (e : Nat) : Nat → Float
  | 0 => x
  | n + 1 =>
    if e ≤ 308 then x / Float.ofScientific 1 false e
    else scaleDown (x / Float.ofScientific 1 false 308) (e - 308) n

/-- The double for the digits `m` and the exponent `e`, `cs` being left. -/
def toDouble (negative : Bool) (m : Nat) (e : Int) (cs : List Char) : Except JsonFault Float :=
  let sign := fun (x : Float) => if negative then -x else x
  let x := Float.ofNat m
  if m = 0 then .ok (sign 0)
  else if e < 0 then .ok (sign (scaleDown x e.natAbs 4))
  else if 308 < e then .error (.before .numberTooLarge cs)
  else
    let y := x * Float.ofScientific 1 false e.toNat
    if y.isInf then .error (.before .numberTooLarge cs) else .ok (sign y)

/-- The digits at the start of a text, and the text after them. -/
def takeDigits (cs : List Char) : List Char × List Char :=
  (cs.takeWhile (·.isDigit), cs.dropWhile (·.isDigit))

/-- An optional sign, and the text after it. -/
def takeSign : List Char → Bool × List Char
  | '+' :: cs => (false, cs)
  | '-' :: cs => (true, cs)
  | cs => (false, cs)

/-- The value of the digits of an exponent, or the rest of them once they exceed
    31 bits. -/
def exponentOf (n : Nat) : List Char → Nat ⊕ List Char
  | [] => .inl n
  | d :: ds =>
    let m := n * 10 + (d.toNat - '0'.toNat)
    if m < Nat.pow 2 31 then exponentOf m ds else .inr ds

/-- Reads an exponent, after its letter, of a number with the digits `m` and the
    exponent `e` so far. -/
def readExponent (negative : Bool) (m : Nat) (e : Int) : JsonReader JsonNumber := fun cs => do
  let (down, cs) := takeSign cs
  let (ds, rest) := takeDigits cs
  match ds, cs with
  | [], [] => .error (.before .endInValue [])
  | [], _ => .error (.next .badNumber cs)
  | ds, _ =>
    match exponentOf 0 ds with
    | .inl n =>
      return (fraction (← toDouble negative m (if down then e - n else e + n) rest), rest)
    | .inr ds =>
      if m ≠ 0 ∧ ¬down then .error (.before .numberTooLarge (ds ++ rest))
      else return (fraction (if negative then -0 else 0), rest)

/-- Reads what follows the digits of a number that is no whole number. -/
def readTail (negative : Bool) (m : Nat) (e : Int) : JsonReader JsonNumber
  | 'e' :: cs => readExponent negative m e cs
  | 'E' :: cs => readExponent negative m e cs
  | cs => (toDouble negative m e cs).map (fraction ·, cs)

/-- Reads the decimals of a number, after its point. -/
def readDecimals (negative : Bool) (m : Nat) (e : Int) : JsonReader JsonNumber := fun cs =>
  let (ds, rest) := takeDigits cs
  match ds, rest with
  | [], [] => .error (.before .endInValue [])
  | [], _ => .error (.next .badNumber rest)
  | ds, _ =>
    let (m, dropped) := extend m ds
    readTail negative m (e - (ds.length - dropped : Nat)) rest

/-- The whole number with the given digits. -/
def whole (isNegative : Bool) (m : Nat) : JsonNumber :=
  if !isNegative then natural m
  else if 0 < m ∧ m ≤ Nat.pow 2 63 then negative m
  else fraction (-(Float.ofNat m))

/-- Reads a number, after its sign. -/
def read (isNegative : Bool) : JsonReader JsonNumber := fun cs =>
  let (ds, rest) := takeDigits cs
  match ds, cs with
  | [], [] => .error (.before .endInValue [])
  | [], _ => .error (.next .badNumber cs)
  | '0' :: _ :: _, _ => .error (.next .badNumber (cs.drop 1))
  | ds, _ =>
    let (m, dropped) := extend 0 ds
    match rest with
    | '.' :: cs => readDecimals isNegative m dropped cs
    | 'e' :: _ => readTail isNegative m dropped rest
    | 'E' :: _ => readTail isNegative m dropped rest
    | _ =>
      if dropped = 0 then .ok (whole isNegative m, rest) else readTail isNegative m dropped rest

/-- Skips an exponent, after its letter. -/
def skipExponent : JsonReader Unit := fun cs =>
  let (ds, rest) := takeDigits (takeSign cs).2
  if ds.isEmpty then .error (.next .badNumber rest) else .ok ((), rest)

/-- Skips the exponent of a number, if any. -/
def skipTail : JsonReader Unit
  | 'e' :: cs => skipExponent cs
  | 'E' :: cs => skipExponent cs
  | cs => .ok ((), cs)

/-- Skips a number, after its sign. -/
def skip : JsonReader Unit := fun cs =>
  let (ds, rest) := takeDigits cs
  match ds with
  | [] => .error (.next .badNumber cs)
  | '0' :: _ :: _ => .error (.next .badNumber (cs.drop 1))
  | _ =>
    match rest with
    | '.' :: cs =>
      let (ds, rest) := takeDigits cs
      if ds.isEmpty then .error (.next .badNumber rest) else skipTail rest
    | _ => skipTail rest

end JsonNumber

end Typeahead
