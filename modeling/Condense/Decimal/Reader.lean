import Condense.Decimal.Shortest

/-!
Reading numeric literals as doubles.
-/

namespace Condense

def digitsValue (digits : List Char) : Nat :=
  digits.foldl (fun n c => n * 10 + (c.toNat - '0'.toNat)) 0

/-- The double nearest to `digits · 10^exponent`. Beyond the range of doubles it is infinite or zero. -/
def floatOfDecimal (digits : Nat) (exponent : Int) : Float :=
  let leading := (Nat.toDigits 10 digits).length + exponent
  if digits = 0 then 0.0
  else if leading > 400 then 1.0 / 0.0
  else if leading < -400 then 0.0
  else if 0 ≤ exponent then Float.ofScientific digits false exponent.toNat
  else Float.ofScientific digits true (-exponent).toNat

/-- The exponent behind its mark. Without a mark it is zero. -/
def exponentValue : List Char → Int
  | _ :: '-' :: digits => -(digitsValue digits : Int)
  | _ :: '+' :: digits => digitsValue digits
  | _ :: digits => digitsValue digits
  | [] => 0

/-- The decimal that a literal spells: digits, maybe a point and further digits, maybe an exponent. -/
def Decimal.ofText (s : List Char) : Decimal :=
  let whole := s.takeWhile Char.isDigit
  let s := s.dropWhile Char.isDigit
  let (fraction, s) := match s with
    | '.' :: rest => (rest.takeWhile Char.isDigit, rest.dropWhile Char.isDigit)
    | _ => ([], s)
  { digits := digitsValue (whole ++ fraction), exponent := exponentValue s - fraction.length }

def readDecimal (s : List Char) : Float :=
  let d := Decimal.ofText s
  floatOfDecimal d.digits d.exponent

def hexDigitValue (c : Char) : Nat :=
  if c.isDigit then c.toNat - '0'.toNat
  else if 'a' ≤ c && c ≤ 'f' then c.toNat - 'a'.toNat + 10
  else if 'A' ≤ c && c ≤ 'F' then c.toNat - 'A'.toNat + 10
  else 0

def isDigitOf (radix : Nat) (c : Char) : Bool :=
  (c.isDigit || ('a' ≤ c && c ≤ 'f') || ('A' ≤ c && c ≤ 'F')) && hexDigitValue c < radix

/-- The value of whole-number digits of a base, rounded after each digit. -/
def readRadix (radix : Nat) (digits : List Char) : Float :=
  digits.foldl (fun value c => value * radix.toFloat + (hexDigitValue c).toFloat) 0.0

end Condense
