import Condense.Decimal.Shortest

/-!
JSON values and their text.
-/

namespace Condense

/-- Whole numbers that fit 64 bits stay whole; all others are doubles. `tooLarge` is a number beyond the
range of doubles. -/
inductive Json.Number where
  | natural (n : Nat)
  | negative (n : Int)
  | double (x : Float)
  | tooLarge

inductive Json where
  | null
  | boolean (b : Bool)
  | number (n : Json.Number)
  | string (s : String)
  | array (items : List Json)
  | object (members : List (String × Json))
  deriving Inhabited

namespace Json

def Number.toFloat? : Number → Option Float
  | .natural n => some n.toUInt64.toFloat
  | .negative n => some (-(n.natAbs.toUInt64.toFloat))
  | .double x => some x
  | .tooLarge => none

def ofNat (n : Nat) : Json :=
  .number (.natural n)

def ofOption {α : Type} (f : α → Json) : Option α → Json
  | some x => f x
  | none => .null

/-- Inserts a member into a list of members ordered by key, in place of one with the same key. -/
def insertMember (key : String) (value : Json) : List (String × Json) → List (String × Json)
  | [] => [(key, value)]
  | (k, v) :: rest =>
    if key < k then (key, value) :: (k, v) :: rest
    else if key = k then (key, value) :: rest
    else (k, v) :: insertMember key value rest

mutual

def canonical : Json → Json
  | .array items => .array (canonicalItems items)
  | .object members => .object (canonicalMembers members [])
  | other => other

def canonicalItems : List Json → List Json
  | [] => []
  | item :: rest => item.canonical :: canonicalItems rest

def canonicalMembers : List (String × Json) → List (String × Json) → List (String × Json)
  | [], done => done
  | (key, value) :: rest, done => canonicalMembers rest (insertMember key value.canonical done)

end

mutual

def inRange : Json → Bool
  | .number .tooLarge => false
  | .array items => inRangeItems items
  | .object members => inRangeMembers members
  | _ => true

def inRangeItems : List Json → Bool
  | [] => true
  | item :: rest => item.inRange && inRangeItems rest

def inRangeMembers : List (String × Json) → Bool
  | [] => true
  | (_, value) :: rest => value.inRange && inRangeMembers rest

end

def hexDigit (n : Nat) : Char :=
  (Nat.toDigits 16 n).headD '0'

def escapeChar (c : Char) : List Char :=
  if c = '"' then ['\\', '"']
  else if c = '\\' then ['\\', '\\']
  else if c = '\x08' then ['\\', 'b']
  else if c = '\t' then ['\\', 't']
  else if c = '\n' then ['\\', 'n']
  else if c = '\x0c' then ['\\', 'f']
  else if c = '\r' then ['\\', 'r']
  else if c.toNat < 0x20 then ['\\', 'u', '0', '0', hexDigit (c.toNat / 16), hexDigit (c.toNat % 16)]
  else [c]

def quote (s : String) : String :=
  String.ofList ('"' :: (s.toList.flatMap escapeChar ++ ['"']))

/-- Doubles keep a fraction, and turn to an exponent from `1e16` on and below `1e-5`. -/
def doubleText (x : Float) : String :=
  let sign := if x.toBits.toNat ≥ Nat.pow 2 63 then "-" else ""
  let d := Decimal.ofFloat x .even
  let digits := Nat.toDigits 10 d.digits
  let point := (digits.length : Int) + d.exponent
  sign ++
    if d.digits = 0 then "0.0"
    else if 0 ≤ d.exponent && point ≤ 16 then d.positional ++ ".0"
    else if -5 < point && point ≤ 16 then d.positional
    else
      let fraction := match digits.drop 1 with
        | [] => ""
        | rest => "." ++ String.ofList rest
      String.ofList (digits.take 1) ++ fraction ++ "e" ++ toString (point - 1)

def Number.text : Number → String
  | .natural n => toString n
  | .negative n => toString n
  | .double x => doubleText x
  | .tooLarge => "null"

mutual

/-- Compact text, members in the order they are kept. -/
def text : Json → String
  | .null => "null"
  | .boolean b => if b then "true" else "false"
  | .number n => n.text
  | .string s => quote s
  | .array items => "[" ++ itemsText items ++ "]"
  | .object members => "\x7b" ++ membersText members ++ "\x7d"

def itemsText : List Json → String
  | [] => ""
  | [item] => item.text
  | item :: rest => item.text ++ "," ++ itemsText rest

def membersText : List (String × Json) → String
  | [] => ""
  | [(key, value)] => quote key ++ ":" ++ value.text
  | (key, value) :: rest => quote key ++ ":" ++ value.text ++ "," ++ membersText rest

end

end Json

end Condense
