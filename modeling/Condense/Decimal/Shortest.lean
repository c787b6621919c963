/-!
The shortest decimal that reads back as a given double.
-/

namespace Condense

/-- The number `digits · 10^exponent`. -/
structure Decimal where
  digits : Nat
  exponent : Int
  deriving DecidableEq

/-- What is taken where two points of a grid are equally near. -/
inductive Tie where
  | up | even
  deriving DecidableEq

/-- The magnitude `mantissa · 2^exponent` of a finite double. -/
structure Magnitude where
  mantissa : Nat
  exponent : Int
  /-- Whether the next smaller double is only half as far away as the next larger one. -/
  closeBelow : Bool
  deriving DecidableEq

namespace Magnitude

def ofBits (bits : UInt64) : Magnitude :=
  let fraction := bits.toNat % Nat.pow 2 52
  let biased : Nat := bits.toNat / Nat.pow 2 52 % 2048
  if biased = 0 then { mantissa := fraction, exponent := -1074, closeBelow := false }
  else
    { mantissa := fraction + Nat.pow 2 52, exponent := (biased : Int) - 1075,
      closeBelow := fraction == 0 && biased > 1 }

end Magnitude

def decimalLength (n : Nat) : Nat :=
  (Nat.toDigits 10 n).length

/-- No double has as many zeros behind the point. -/
def Magnitude.places : Nat :=
  350

/-- The exponent of the leading decimal digit of a positive magnitude. -/
def Magnitude.leading (x : Magnitude) : Int :=
  let scaled := x.mantissa * Nat.pow 10 places * Nat.pow 2 x.exponent.toNat / Nat.pow 2 (-x.exponent).toNat
  (decimalLength scaled : Int) - (places + 1)

/-- The point nearest to `x` on the grid of multiples of `10^e`, if it rounds to `x`. -/
def Magnitude.onGrid? (x : Magnitude) (tie : Tie) (e : Int) : Option Nat :=
  -- one unit is a quarter of the distance between neighbouring doubles
  let quarter := x.exponent - 2
  let units (n : Nat) := n * Nat.pow 2 quarter.toNat * Nat.pow 10 (-e).toNat
  let point (c : Nat) := c * Nat.pow 10 e.toNat * Nat.pow 2 (-quarter).toNat
  let value := units (4 * x.mantissa)
  let low := units (4 * x.mantissa - if x.closeBelow then 1 else 2)
  let high := units (4 * x.mantissa + 2)
  let inside (c : Nat) :=
    if x.mantissa % 2 = 0 then low ≤ point c && point c ≤ high else low < point c && point c < high
  let below := value / point 1
  let above := below + 1
  match inside below, inside above with
  | false, false => none
  | true, false => some below
  | false, true => some above
  | true, true =>
    let down := value - point below
    let up := point above - value
    if down < up then some below
    else if up < down then some above
    else match tie with
      | .up => some above
      | .even => some (if below % 2 = 0 then below else above)

/-- Moves trailing zeros of the digits into the exponent. -/
def Decimal.trimZeros (d : Decimal) : Decimal :=
  go (decimalLength d.digits) d
where
  go : Nat → Decimal → Decimal
    | 0, d => d
    | n + 1, d =>
      if d.digits != 0 && d.digits % 10 = 0 then
        go n { digits := d.digits / 10, exponent := d.exponent + 1 }
      else d

/-- The fewest digits that read back as `x`, and of those the nearest. -/
def Magnitude.shortest (x : Magnitude) (tie : Tie) : Decimal :=
  if x.mantissa = 0 then { digits := 0, exponent := 0 }
  else
    let leading := x.leading
    let found := (List.range 17).findSome? fun (n : Nat) =>
      let e := leading - (n : Int)
      (x.onGrid? tie e).map fun digits => ({ digits, exponent := e } : Decimal)
    (found.getD { digits := 0, exponent := 0 }).trimZeros

def Decimal.ofFloat (x : Float) (tie : Tie) : Decimal :=
  (Magnitude.ofBits x.toBits).shortest tie

def Decimal.positional (d : Decimal) : String :=
  let digits := Nat.toDigits 10 d.digits
  if 0 ≤ d.exponent then
    String.ofList digits ++ (if d.digits = 0 then "" else "".pushn '0' d.exponent.toNat)
  else
    let places := (-d.exponent).toNat
    let padded := List.replicate (places + 1 - digits.length) '0' ++ digits
    String.ofList (padded.take (padded.length - places)) ++ "."
      ++ String.ofList (padded.drop (padded.length - places))

/-- A double in full: all its digits before the point and as many after it as tell it apart. -/
def plainNumber (x : Float) : String :=
  if x.isNaN then "NaN"
  else
    let sign := if x.toBits.toNat ≥ Nat.pow 2 63 then "-" else ""
    sign ++ if x.isInf then "inf" else (Decimal.ofFloat x .up).positional

end Condense
