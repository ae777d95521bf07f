/-!
# The shortest text of a floating point number

A finite double is written with the fewest decimal digits that no other double
is nearer to, and of those with the nearest ones, the last digit being even if
there are two. Numbers from 10^-5 to 10^16, the latter excluded, are written
positionally, with at least one decimal, and all others with an exponent that has
a sign.
-/

namespace Typeahead

/-- A positive double `mantissa * 2 ^ exponent`. The double below it is only half
    as far as the one above if `narrow`. -/
structure Double where
  mantissa : Nat
  exponent : Int
  narrow : Bool

namespace Double

/-- The double with given bits, its sign apart. -/
def ofBits (bits : Nat) : Double :=
  let fraction := bits % Nat.pow 2 52
  let e : Nat := bits / Nat.pow 2 52 % Nat.pow 2 11
  if e = 0 then ⟨fraction, -1074, false⟩
  else ⟨fraction + Nat.pow 2 52, Int.ofNat e - 1075, fraction = 0 ∧ 1 < e⟩

/-- The multiple of `10 ^ k` nearest to a double, divided by `10 ^ k`, if it is
    read as that double. Halfway between two multiples it is the even one. -/
def multiple? (x : Double) (k : Int) : Option Nat :=
  -- Quarters of the mantissa keep the ends of the interval whole.
  let q := x.exponent - 2
  let unit := Nat.pow 10 k.toNat * Nat.pow 2 (-q).toNat
  let scale := Nat.pow 10 (-k).toNat * Nat.pow 2 q.toNat
  let value := 4 * x.mantissa * scale
  let low := (4 * x.mantissa - if x.narrow then 1 else 2) * scale
  let high := (4 * x.mantissa + 2) * scale
  let isInside := fun g =>
    if x.mantissa % 2 = 0 then low ≤ g * unit ∧ g * unit ≤ high
    else low < g * unit ∧ g * unit < high
  let below := value / unit
  let isBelow := 2 * (value % unit) < unit ∨ (2 * (value % unit) = unit ∧ below % 2 = 0)
  let nearest := if isBelow then [below, below + 1] else [below + 1, below]
  nearest.find? fun g => 0 < g ∧ isInside g

/-- The digits of a positive double, and the exponent of the last one. -/
def digits (x : Double) : List Char × Int :=
  let ks : List Int := (List.range 650).map fun i => 309 - Int.ofNat i
  match ks.findSome? fun k => (x.multiple? k).map (·, k) with
  | some (g, k) => (Nat.toDigits 10 g, k)
  | none => (['0'], 0)

/-- The text of an exponent, which always has a sign. -/
def exponentText (e : Int) : List Char :=
  (if e < 0 then '-' else '+') :: Nat.toDigits 10 e.natAbs

/-- The text of digits of which the last one has the exponent `k`. -/
def textOf (ds : List Char) (k : Int) : List Char :=
  let point := ds.length + k
  if 0 ≤ k ∧ point ≤ 16 then ds ++ List.replicate k.toNat '0' ++ ['.', '0']
  else if 0 < point ∧ point ≤ 16 then ds.take point.toNat ++ '.' :: ds.drop point.toNat
  else if -5 < point ∧ point ≤ 0 then '0' :: '.' :: List.replicate (-point).toNat '0' ++ ds
  else
    let fraction := if ds.length = 1 then [] else '.' :: ds.drop 1
    ds.take 1 ++ fraction ++ 'e' :: exponentText (point - 1)

end Double

/-- The text of a finite double. -/
def shortestText (x : Float) : List Char :=
  let bits := x.toBits.toNat
  let sign := if bits < Nat.pow 2 63 then [] else ['-']
  let d := Double.ofBits bits
  sign ++ if d.mantissa = 0 then ['0', '.', '0'] else Double.textOf d.digits.1 d.digits.2

end Typeahead
