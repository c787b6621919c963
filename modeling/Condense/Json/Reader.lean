import Condense.Json.Basic

/-!
Reading JSON text. Nesting is limited, and a number with more digits than a 64-bit significand holds is read from the
leading ones.
-/

namespace Condense.Json

def isSpace (c : Char) : Bool :=
  c == ' ' || c == '\n' || c == '\t' || c == '\r'

def skipSpace (s : List Char) : List Char :=
  s.dropWhile isSpace

def digitValue (c : Char) : Nat :=
  c.toNat - '0'.toNat

def maxSignificand : Nat := Nat.pow 2 64 - 1

/-- Takes up digits while the significand fits 64 bits. Answers the significand, how many digits were
taken, and the rest. -/
def takeDigits (significand taken : Nat) : List Char → Nat × Nat × List Char
  | [] => (significand, taken, [])
  | c :: rest =>
    if c.isDigit && significand * 10 + digitValue c ≤ maxSignificand then
      takeDigits (significand * 10 + digitValue c) (taken + 1) rest
    else (significand, taken, c :: rest)

/-- `significand · 10^exponent` by repeated scaling with powers of ten up to `1e308`. -/
def scale : Nat → Float → Int → Option Float
  | 0, f, _ => some f
  | steps + 1, f, exponent =>
    if exponent.natAbs ≤ 308 then
      let power := Float.ofScientific 1 false exponent.natAbs
      if 0 ≤ exponent then
        let scaled := f * power
        if scaled.isInf then none else some scaled
      else some (f / power)
    else if f == 0.0 then some f
    else if 0 ≤ exponent then none
    else scale steps (f / 1e308) (exponent + 308)

def doubleOfParts (positive : Bool) (significand : Nat) (exponent : Int) : Number :=
  match scale (exponent.natAbs / 308 + 2) significand.toUInt64.toFloat exponent with
  | some f => .double (if positive then f else -f)
  | none => .tooLarge

def readNat (s : List Char) : Nat :=
  s.foldl (fun n c => n * 10 + digitValue c) 0

def readExponent (positive : Bool) (significand : Nat) (start : Int) (s : List Char) :
    Option (Number × List Char) :=
  let (negative, s) := match s with
    | '+' :: rest => (false, rest)
    | '-' :: rest => (true, rest)
    | _ => (false, s)
  let digits := s.takeWhile Char.isDigit
  if digits.isEmpty then none
  else
    let rest := s.dropWhile Char.isDigit
    let exponent := readNat digits
    if exponent > Nat.pow 2 31 - 1 then
      if significand != 0 && !negative then some (.tooLarge, rest)
      else some (.double (if positive then 0.0 else -0.0), rest)
    else
      let shift : Int := if negative then -(exponent : Int) else exponent
      some (doubleOfParts positive significand (start + shift), rest)

def readEnd (positive : Bool) (significand : Nat) (exponent : Int) (s : List Char) :
    Option (Number × List Char) :=
  match s with
  | 'e' :: rest | 'E' :: rest => readExponent positive significand exponent rest
  | _ => some (doubleOfParts positive significand exponent, s)

def readFraction (positive : Bool) (significand : Nat) (exponent : Int) (s : List Char) :
    Option (Number × List Char) :=
  let (significand, taken, rest) := takeDigits significand 0 s
  match rest with
  | c :: _ =>
    if c.isDigit then
      readEnd positive significand (exponent - taken) (rest.dropWhile Char.isDigit)
    else if taken = 0 then none
    else readEnd positive significand (exponent - taken) rest
  | [] => if taken = 0 then none else readEnd positive significand (exponent - taken) []

def readUnsigned (positive : Bool) (s : List Char) : Option (Number × List Char) :=
  match s with
  | [] => none
  | c :: rest =>
    if !c.isDigit then none
    else
      let (significand, _, rest) := if c = '0' then (0, 0, rest) else takeDigits (digitValue c) 1 rest
      match rest with
      | '.' :: rest => readFraction positive significand 0 rest
      | 'e' :: _ | 'E' :: _ => readEnd positive significand 0 rest
      | d :: _ =>
        if d.isDigit then
          if c = '0' then none
          else
            let extra := (rest.takeWhile Char.isDigit).length
            match rest.dropWhile Char.isDigit with
            | '.' :: rest => readFraction positive significand extra rest
            | rest => readEnd positive significand extra rest
        else some (whole positive significand, rest)
      | [] => some (whole positive significand, [])
where
  whole (positive : Bool) (significand : Nat) : Number :=
    if positive then .natural significand
    else if significand = 0 || significand > Nat.pow 2 63 then .double (-significand.toUInt64.toFloat)
    else .negative (-significand)

def hexValue? (c : Char) : Option Nat :=
  if c.isDigit then some (digitValue c)
  else if 'a' ≤ c && c ≤ 'f' then some (c.toNat - 'a'.toNat + 10)
  else if 'A' ≤ c && c ≤ 'F' then some (c.toNat - 'A'.toNat + 10)
  else none

def readHex4 : List Char → Option (Nat × List Char)
  | a :: b :: c :: d :: rest => do
    let a ← hexValue? a
    let b ← hexValue? b
    let c ← hexValue? c
    let d ← hexValue? d
    some (((a * 16 + b) * 16 + c) * 16 + d, rest)
  | _ => none

/-- The character of a `\u` escape after its letter, a surrogate pair being one character. -/
def readUnicode (s : List Char) : Option (Char × List Char) := do
  let (high, rest) ← readHex4 s
  if 0xDC00 ≤ high && high ≤ 0xDFFF then none
  else if 0xD800 ≤ high && high ≤ 0xDBFF then
    match rest with
    | '\\' :: 'u' :: rest =>
      let (low, rest) ← readHex4 rest
      if 0xDC00 ≤ low && low ≤ 0xDFFF then
        some (Char.ofNat (0x10000 + (high - 0xD800) * 0x400 + (low - 0xDC00)), rest)
      else none
    | _ => none
  else some (Char.ofNat high, rest)

/-- Reads a string after its opening quote; `done` holds the characters so far, latest first. -/
def readString : Nat → List Char → List Char → Option (String × List Char)
  | 0, _, _ => none
  | steps + 1, done, s =>
    match s with
    | [] => none
    | '"' :: rest => some (String.ofList done.reverse, rest)
    | '\\' :: c :: rest =>
      match c with
      | '"' | '\\' | '/' => readString steps (c :: done) rest
      | 'b' => readString steps ('\x08' :: done) rest
      | 'f' => readString steps ('\x0c' :: done) rest
      | 'n' => readString steps ('\n' :: done) rest
      | 'r' => readString steps ('\r' :: done) rest
      | 't' => readString steps ('\t' :: done) rest
      | 'u' => do
        let (c, rest) ← readUnicode rest
        readString steps (c :: done) rest
      | _ => none
    | c :: rest => if c.toNat < 0x20 then none else readString steps (c :: done) rest

def stripWord (word : String) (s : List Char) : Option (List Char) :=
  if word.toList.isPrefixOf s then some (s.drop word.length) else none

def maxDepth : Nat := 127

mutual

/-- Reads a value. The first argument bounds the steps, the second the nesting. -/
def readValue : Nat → Nat → List Char → Option (Json × List Char)
  | 0, _, _ => none
  | steps + 1, depth, s =>
    match skipSpace s with
    | 'n' :: rest => (stripWord "ull" rest).map (Json.null, ·)
    | 't' :: rest => (stripWord "rue" rest).map (Json.boolean true, ·)
    | 'f' :: rest => (stripWord "alse" rest).map (Json.boolean false, ·)
    | '"' :: rest => (readString (rest.length + 1) [] rest).map fun (s, rest) => (Json.string s, rest)
    | '[' :: rest =>
      if depth = 0 then none
      else match skipSpace rest with
        | ']' :: rest => some (.array [], rest)
        | rest => (readItems steps (depth - 1) rest).map fun (items, rest) => (Json.array items, rest)
    | '\x7b' :: rest =>
      if depth = 0 then none
      else match skipSpace rest with
        | '\x7d' :: rest => some (.object [], rest)
        | rest =>
          (readMembers steps (depth - 1) rest).map fun (members, rest) => (Json.object members, rest)
    | '-' :: rest => (readUnsigned false rest).map fun (n, rest) => (Json.number n, rest)
    | rest => (readUnsigned true rest).map fun (n, rest) => (Json.number n, rest)

def readItems : Nat → Nat → List Char → Option (List Json × List Char)
  | 0, _, _ => none
  | steps + 1, depth, s => do
    let (item, rest) ← readValue steps depth s
    match skipSpace rest with
    | ',' :: rest =>
      let (items, rest) ← readItems steps depth rest
      some (item :: items, rest)
    | ']' :: rest => some ([item], rest)
    | _ => none

def readMembers : Nat → Nat → List Char → Option (List (String × Json) × List Char)
  | 0, _, _ => none
  | steps + 1, depth, s => do
    let (key, rest) ← match skipSpace s with
      | '"' :: rest => readString (rest.length + 1) [] rest
      | _ => none
    let rest ← match skipSpace rest with
      | ':' :: rest => some rest
      | _ => none
    let (value, rest) ← readValue steps depth rest
    match skipSpace rest with
    | ',' :: rest =>
      let (members, rest) ← readMembers steps depth rest
      some ((key, value) :: members, rest)
    | '\x7d' :: rest => some ([(key, value)], rest)
    | _ => none

end

/-- The value of a whole text, members as written, numbers of any size. -/
def read? (text : String) : Option Json := do
  let s := text.toList
  let (value, rest) ← readValue (2 * s.length + 2) maxDepth s
  if (skipSpace rest).isEmpty then some value else none

/-- The value of a whole text in canonical order. -/
def parse? (text : String) : Option Json := do
  let value ← read? text
  if value.inRange then some value.canonical else none

end Condense.Json
