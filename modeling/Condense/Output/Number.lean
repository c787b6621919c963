import Condense.Decimal.Reader

/-!
The shortest spelling of a number in source code.
-/

namespace Condense

def isNegative (x : Float) : Bool :=
  x.toBits.toNat ≥ Nat.pow 2 63 && !x.isNaN

/-- The usual text of a decimal: the point stands among the digits or near them, and else there is an exponent. -/
def Decimal.printed (d : Decimal) : List Char :=
  let digits := Nat.toDigits 10 d.digits
  let point := digits.length + d.exponent
  if 0 ≤ d.exponent && point ≤ 16 then digits ++ List.replicate d.exponent.toNat '0' ++ ['.', '0']
  else if 0 < point && point ≤ 16 then digits.take point.toNat ++ '.' :: digits.drop point.toNat
  else if -5 < point && point ≤ 0 then '0' :: '.' :: (List.replicate (-point).toNat '0' ++ digits)
  else
    digits.take 1 ++ (if digits.length = 1 then [] else '.' :: digits.drop 1) ++ 'e' :: (toString (point - 1)).toList

/-- What stands before and behind the first of a character. -/
def splitOnce? (mark : Char) (text : List Char) : Option (List Char × List Char) :=
  match text.span (· != mark) with
  | (before, _ :: behind) => some (before, behind)
  | (_, []) => none

def readInt32? (text : List Char) : Option Int32 :=
  let (isNegated, digits) := match text with
    | '-' :: rest => (true, rest)
    | '+' :: rest => (false, rest)
    | _ => (false, text)
  let value : Int := if isNegated then -digitsValue digits else digitsValue digits
  if !digits.isEmpty && digits.all Char.isDigit && -2147483648 ≤ value && value ≤ 2147483647 then
    some (.ofInt value)
  else none

/-- The digits of a printed number without the zeros at both ends, and the power of ten that goes with them. -/
def decompose (printed : List Char) : List Char × Int32 :=
  let (mantissa, exponent) := match splitOnce? 'e' printed with
    | some (mantissa, exponent) => (mantissa, (readInt32? exponent).getD 0)
    | none => (printed, 0)
  let (whole, fraction) := (splitOnce? '.' mantissa).getD (mantissa, [])
  let digits := (whole ++ fraction).dropWhile (· == '0')
  let zeros := digits.reverse.takeWhile (· == '0')
  (digits.take (digits.length - zeros.length), exponent - .ofNat fraction.length + .ofNat zeros.length)

def plainText (digits : List Char) (exponent : Int32) : List Char :=
  if 0 ≤ exponent then digits ++ List.replicate exponent.toInt.toNat '0'
  else
    let point := .ofNat digits.length + exponent
    if 0 < point then digits.take point.toInt.toNat ++ '.' :: digits.drop point.toInt.toNat
    else '.' :: (List.replicate (-point).toInt.toNat '0' ++ digits)

def scientificText (digits : List Char) (exponent : Int32) : List Char :=
  digits ++ 'e' :: (toString exponent).toList

/-- The shorter of the two spellings; the plain one where they are equally long. -/
def shortestText (digits : List Char) (exponent : Int32) : List Char :=
  let plain := plainText digits exponent
  let scientific := scientificText digits exponent
  if exponent != 0 && scientific.length < plain.length then scientific else plain

/-- The shortest spelling of a number. Infinities are quotients, since `Infinity` is a name that a
program may redefine. -/
def numberText (x : Float) : String :=
  if x.isNaN then "NaN"
  else
    let sign := if isNegative x then "-" else ""
    let decimal := Decimal.ofFloat x .even
    sign ++ if x.isInf then "1/0"
      else if decimal.digits = 0 then "0"
      else
        let (digits, exponent) := decompose decimal.printed
        String.ofList (shortestText digits exponent)

/-- A finite number in JSON, where a digit has to stand before the point. -/
def jsonNumberText (x : Float) : String :=
  match (numberText x).toList with
  | '-' :: '.' :: rest => String.ofList ('-' :: '0' :: '.' :: rest)
  | '.' :: rest => String.ofList ('0' :: '.' :: rest)
  | _ => numberText x

end Condense
