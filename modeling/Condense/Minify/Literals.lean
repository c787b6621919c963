import Condense.Decimal.Reader
import Condense.Minify.Arithmetic
import Condense.Minify.Basic
import Condense.Settings.Basic

/-!
Evaluation of operators on literals, where the result is exact and no longer than what it replaces, joining of
neighbouring strings, and the short spellings of big integers and truth values.
-/

namespace Condense.Literals

def foldUnary? (settings : Settings) (op : UnaryOp) (operand : Literal) : Option Literal :=
  match op, operand with
  | .minus, .number x => if settings.allows .applyUnaryMinus then some (.number (-x)) else none
  | .plus, .number x => if settings.allows .removeUnaryPlus then some (.number x) else none
  | .not, .boolean b => some (.boolean (!b))
  | _, _ => none

/-- How long a literal that came out of an operator is written; truth values take two characters. -/
def foldedLength : Literal → Nat
  | .number x => (numberText x).length
  | _ => 2

def foldNumbers? (settings : Settings) (op : BinaryOp) (x y : Float) : Option Literal :=
  if settings.allows .evaluateNumericExpressions then
    (Arithmetic.evaluate? op x y).bind fun value =>
      if foldedLength value ≤ (numberText x).length + op.spelling.length + (numberText y).length then
        some value
      else none
  else none

def foldBinary? (settings : Settings) (op : BinaryOp) (left right : Option Literal) : Option Literal :=
  match left, right with
  | some (.number x), some (.number y) => foldNumbers? settings op x y
  | some (.string head), some (.string tail) =>
    if op == .add && settings.allows .combineAdjacentStrings then some (.string (head ++ tail)) else none
  | _, _ => none

def radixOf : List Char → Nat
  | '0' :: 'x' :: _ => 16
  | '0' :: 'o' :: _ => 8
  | '0' :: 'b' :: _ => 2
  | _ => 10

def wholeValue? (radix : Nat) (digits : List Char) : Option Nat :=
  if !digits.isEmpty && digits.all (isDigitOf radix) then
    some (digits.foldl (fun n c => n * radix + hexDigitValue c) 0)
  else none

/-- A big integer without separators, and in decimal where that is shorter. -/
def normalBigInt (digits : String) : String :=
  let plain := digits.toList.filter (· != '_')
  let lower := plain.map Char.toLower
  let radix := radixOf lower
  if radix == 10 then String.ofList plain
  else match wholeValue? radix (lower.drop 2) with
    | some value =>
      let decimal := Nat.toDigits 10 value
      String.ofList (if decimal.length < plain.length then decimal else plain)
    | none => String.ofList plain

def fold? (settings : Settings) (t : Tree) (id : NodeId) : Option (Form NodeId) :=
  match t.form id with
  | .unary op operand =>
    if settings.evalLiteralExpressions then
      (t.constant? operand).bind fun x => (foldUnary? settings op x).map .constant
    else none
  | .binary op left right =>
    if settings.evalLiteralExpressions then
      (foldBinary? settings op (t.constant? left) (t.constant? right)).map .constant
    else none
  | .bigInt digits =>
    let normal := normalBigInt digits
    if settings.allows .minifyNumbers && normal != digits then some (.bigInt normal) else none
  | _ => none

/-- Makes `x + "a" + "b"` into `x + "ab"`. -/
def joinTail? (t : Tree) (id : NodeId) : Option Tree :=
  match t.form id with
  | .binary .add left right =>
    match t.constant? right, t.form (t.unwrapGrouping left) with
    | some (.string tail), .binary .add first middle =>
      match t.constant? middle with
      | some (.string text) =>
        let t := t.setForm middle (.constant (.string (text ++ tail)))
        some (t.setForm id (.binary .add first middle))
      | _ => none
    | _, _ => none
  | _ => none

def foldNode (settings : Settings) (t : Tree) (id : NodeId) : Changed :=
  match fold? settings t id with
  | some form => { tree := t.setForm id form, changes := 1 }
  | none =>
    if settings.evalLiteralExpressions && settings.allows .combineAdjacentStrings then
      Changed.ofOption t (joinTail? t id)
    else { tree := t }

/-- Makes a truth value into the negation of a digit. -/
def negateDigit (t : Tree) (id : NodeId) : Changed :=
  match t.form id with
  | .constant (.boolean value) =>
    let (digit, t) := t.alloc (.constant (.number (if value then 0.0 else 1.0))) (t.span id)
    { tree := t.setForm id (.unary .not digit), changes := 1 }
  | _ => { tree := t }

/-- Folds literals below `root`, operands before operators. -/
def run (settings : Settings) (root : NodeId) (t : Tree) : Changed :=
  (Changed.each (t.descendants root).reverse (foldNode settings) t).andThen fun t =>
    if settings.allows .booleanLiteralsToNot then Changed.each (t.descendants root) negateDigit t
    else { tree := t }

end Condense.Literals
