import Condense.Output.Number
import Condense.Syntax.Form

/-!
The operators of the language on numbers that are known beforehand.
-/

namespace Condense.Arithmetic

def whole (x : Float) : Int :=
  let m := Magnitude.ofBits x.toBits
  let n := m.mantissa * Nat.pow 2 m.exponent.toNat / Nat.pow 2 (-m.exponent).toNat
  if isNegative x then -(n : Int) else n

/-- The remainder of a truncated division, which has the sign of the dividend. -/
def remainder (x y : Float) : Float :=
  if x.isNaN || y.isNaN || x.isInf || y == 0.0 then 0.0 / 0.0
  else if y.isInf then x
  else
    let a := Magnitude.ofBits x.toBits
    let b := Magnitude.ofBits y.toBits
    let unit := min a.exponent b.exponent
    let units (m : Magnitude) := m.mantissa * Nat.pow 2 (m.exponent - unit).toNat
    let rest := units a % units b
    let value := Float.scaleB rest.toUInt64.toFloat unit
    if isNegative x then -value else value

/-- A number as a word of 32 bits: its whole part modulo 2 to the 32nd. -/
def word (x : Float) : Nat :=
  if x.isFinite then (whole x % (Nat.pow 2 32 : Nat)).toNat else 0

def signed (n : Nat) : Int :=
  let bits := n % Nat.pow 2 32
  if bits < Nat.pow 2 31 then (bits : Int) else bits - (Nat.pow 2 32 : Nat)

def shiftAmount (x : Float) : Nat :=
  word x % 32

def number? (op : BinaryOp) (x y : Float) : Option Float :=
  match op with
  | .add => some (x + y)
  | .sub => some (x - y)
  | .mul => some (x * y)
  | .div => some (x / y)
  | .mod => some (remainder x y)
  | .bitAnd => some (Float.ofInt (signed (word x &&& word y)))
  | .bitOr => some (Float.ofInt (signed (word x ||| word y)))
  | .bitXor => some (Float.ofInt (signed (word x ^^^ word y)))
  | .leftShift => some (Float.ofInt (signed (word x * Nat.pow 2 (shiftAmount y))))
  | .rightShift => some (Float.ofInt (Int.fdiv (signed (word x)) (Nat.pow 2 (shiftAmount y) : Nat)))
  | .unsignedRightShift => some (Float.ofInt (word x / Nat.pow 2 (shiftAmount y) : Nat))
  | _ => none

def truth? (op : BinaryOp) (x y : Float) : Option Bool :=
  match op with
  | .lt => some (x < y)
  | .ltEq => some (x ≤ y)
  | .gt => some (y < x)
  | .gtEq => some (y ≤ x)
  | .eq | .strictEq => some (x == y)
  | .notEq | .strictNotEq => some (x != y)
  | _ => none

/-- The literal that an operator yields on two numbers, unless it is not finite. -/
def evaluate? (op : BinaryOp) (x y : Float) : Option Literal :=
  match truth? op x y with
  | some b => some (.boolean b)
  | none => (number? op x y).bind fun value => if value.isFinite then some (.number value) else none

end Condense.Arithmetic
