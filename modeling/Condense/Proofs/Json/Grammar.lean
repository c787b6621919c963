import Mathlib.Data.Rat.Defs
import Mathlib.Algebra.Field.Rat
import Condense.Decimal.Reader
import Condense.Json.Basic

/-!
The texts that are JSON, and the values they stand for.
-/

namespace Condense

/-- What a JSON text stands for. -/
inductive JsonValue where
  | null
  | boolean (b : Bool)
  | number (q : ℚ)
  | string (s : String)
  | array (items : List JsonValue)
  | object (members : List (String × JsonValue))

/-- The rational that a decimal numeral without a sign stands for: digits, maybe a point and further digits,
maybe an exponent. -/
def magnitudeOf (cs : List Char) : ℚ :=
  let whole := cs.takeWhile Char.isDigit
  let rest := cs.dropWhile Char.isDigit
  let fraction := match rest with
    | '.' :: behind => behind.takeWhile Char.isDigit
    | _ => []
  let rest := match rest with
    | '.' :: behind => behind.dropWhile Char.isDigit
    | _ => rest
  let exponent : Int := match rest with
    | _ :: '-' :: digits => -(digitsValue digits : Int)
    | _ :: '+' :: digits => digitsValue digits
    | _ :: digits => digitsValue digits
    | [] => 0
  digitsValue (whole ++ fraction) * 10 ^ (exponent - fraction.length)

/-- The rational that a decimal numeral stands for. -/
def decimalValue : List Char → ℚ
  | '-' :: rest => -magnitudeOf rest
  | cs => magnitudeOf cs

namespace JsonText

def Digits (cs : List Char) : Prop :=
  cs ≠ [] ∧ cs.all Char.isDigit = true

/-- Digits without a zero before another digit. -/
def Whole (cs : List Char) : Prop :=
  Digits cs ∧ (cs = ['0'] ∨ cs.head? ≠ some '0')

/-- A point with digits behind it, or nothing. -/
def Fraction (cs : List Char) : Prop :=
  cs = [] ∨ ∃ digits, cs = '.' :: digits ∧ Digits digits

/-- An exponent, or nothing. -/
def Exponent (cs : List Char) : Prop :=
  cs = [] ∨ ∃ mark sign digits, cs = mark :: (sign ++ digits) ∧ mark ∈ ['e', 'E'] ∧ sign ∈ [[], ['+'], ['-']] ∧
    Digits digits

def Number (cs : List Char) : Prop :=
  ∃ sign whole fraction exponent, cs = sign ++ (whole ++ (fraction ++ exponent)) ∧ sign ∈ [[], ['-']] ∧
    Whole whole ∧ Fraction fraction ∧ Exponent exponent

/-- The letters behind a backslash and the characters they stand for. -/
def escapes : List (Char × Char) :=
  [('"', '"'), ('\\', '\\'), ('/', '/'), ('b', '\x08'), ('f', '\x0c'), ('n', '\n'), ('r', '\r'), ('t', '\t')]

/-- The number that four hexadecimal digits stand for. -/
def codeUnit (digits : List Char) : Nat :=
  digits.foldl (fun n c => n * 16 + hexDigitValue c) 0

def HexDigits (digits : List Char) : Prop :=
  digits.length = 4 ∧ digits.all (isDigitOf 16) = true

/-- What stands between the quotes of a string, and the characters it stands for. A character beyond the first
65536 may be written as a pair of units. -/
inductive Characters : List Char → List Char → Prop
  | nil : Characters [] []
  | plain {c : Char} {text chars : List Char} :
    0x20 ≤ c.toNat → c ≠ '"' → c ≠ '\\' → Characters text chars → Characters (c :: text) (c :: chars)
  | escaped {letter c : Char} {text chars : List Char} :
    (letter, c) ∈ escapes → Characters text chars → Characters ('\\' :: letter :: text) (c :: chars)
  | unit {digits : List Char} {c : Char} {text chars : List Char} :
    HexDigits digits → codeUnit digits = c.toNat → Characters text chars →
    Characters ('\\' :: 'u' :: (digits ++ text)) (c :: chars)
  | pair {high low : List Char} {c : Char} {text chars : List Char} :
    HexDigits high → HexDigits low → 0xD800 ≤ codeUnit high → codeUnit high < 0xDC00 → 0xDC00 ≤ codeUnit low →
    codeUnit low < 0xE000 → c.toNat = 0x10000 + (codeUnit high - 0xD800) * 0x400 + (codeUnit low - 0xDC00) →
    Characters text chars →
    Characters ('\\' :: 'u' :: (high ++ ('\\' :: 'u' :: (low ++ text)))) (c :: chars)

def Quotes (cs : List Char) (s : String) : Prop :=
  ∃ text, cs = '"' :: (text ++ ['"']) ∧ Characters text s.toList

def Space (cs : List Char) : Prop :=
  ∀ c ∈ cs, c ∈ [' ', '\t', '\n', '\r']

mutual

/-- A text that is one value, without room around it. -/
inductive Spells : List Char → JsonValue → Prop
  | null : Spells ['n', 'u', 'l', 'l'] .null
  | true : Spells ['t', 'r', 'u', 'e'] (.boolean true)
  | false : Spells ['f', 'a', 'l', 's', 'e'] (.boolean false)
  | number {cs : List Char} : Number cs → Spells cs (.number (decimalValue cs))
  | string {cs : List Char} {s : String} : Quotes cs s → Spells cs (.string s)
  | emptyArray {room : List Char} : Space room → Spells ('[' :: (room ++ [']'])) (.array [])
  | array {text : List Char} {items : List JsonValue} : Items text items → Spells ('[' :: (text ++ [']'])) (.array items)
  | emptyObject {room : List Char} : Space room → Spells ('\x7b' :: (room ++ ['\x7d'])) (.object [])
  | object {text : List Char} {members : List (String × JsonValue)} :
    Members text members → Spells ('\x7b' :: (text ++ ['\x7d'])) (.object members)

inductive Items : List Char → List JsonValue → Prop
  | last {before text after : List Char} {v : JsonValue} :
    Space before → Spells text v → Space after → Items (before ++ (text ++ after)) [v]
  | more {before text after rest : List Char} {v : JsonValue} {items : List JsonValue} :
    Space before → Spells text v → Space after → Items rest items →
    Items (before ++ (text ++ (after ++ ',' :: rest))) (v :: items)

inductive Members : List Char → List (String × JsonValue) → Prop
  | last {before key between ahead text behind : List Char} {name : String} {v : JsonValue} :
    Space before → Quotes key name → Space between → Space ahead → Spells text v → Space behind →
    Members (before ++ (key ++ (between ++ ':' :: (ahead ++ (text ++ behind))))) [(name, v)]
  | more {before key between ahead text behind rest : List Char} {name : String} {v : JsonValue}
      {members : List (String × JsonValue)} :
    Space before → Quotes key name → Space between → Space ahead → Spells text v → Space behind →
    Members rest members →
    Members (before ++ (key ++ (between ++ ':' :: (ahead ++ (text ++ (behind ++ ',' :: rest)))))) ((name, v) :: members)

end

def Reads (cs : List Char) (v : JsonValue) : Prop :=
  ∃ before text after, cs = before ++ (text ++ after) ∧ Space before ∧ Spells text v ∧ Space after

theorem space_nil : Space [] := by
  intro c member
  cases member

theorem Spells.reads {cs : List Char} {v : JsonValue} (spells : Spells cs v) : Reads cs v :=
  ⟨[], cs, [], by simp, space_nil, spells, space_nil⟩

theorem items_intercalate {texts : List (List Char)} {values : List JsonValue}
    (each : List.Forall₂ Spells texts values) (some : texts ≠ []) : Items ([','].intercalate texts) values := by
  induction each with
  | nil => exact absurd rfl some
  | @cons text v texts values spells each ih =>
    cases each with
    | nil =>
      have last := Items.last space_nil spells space_nil
      simpa [List.intercalate] using last
    | cons next each =>
      have more := Items.more space_nil spells space_nil (ih (List.cons_ne_nil _ _))
      simpa [List.intercalate] using more

def SpellsMember (cs : List Char) (member : String × JsonValue) : Prop :=
  ∃ key text, cs = key ++ ':' :: text ∧ Quotes key member.1 ∧ Spells text member.2

theorem members_intercalate {texts : List (List Char)} {members : List (String × JsonValue)}
    (each : List.Forall₂ SpellsMember texts members) (some : texts ≠ []) :
    Members ([','].intercalate texts) members := by
  induction each with
  | nil => exact absurd rfl some
  | @cons text member texts members spells each ih =>
    obtain ⟨key, value, rfl, quotes, spells⟩ := spells
    cases each with
    | nil =>
      have last := Members.last space_nil quotes space_nil space_nil spells space_nil
      simpa [List.intercalate] using last
    | cons next each =>
      have more := Members.more space_nil quotes space_nil space_nil spells space_nil (ih (List.cons_ne_nil _ _))
      simpa [List.intercalate] using more

theorem codeUnit_of_small {n : Nat} (small : n < 0x20) :
    HexDigits ['0', '0', Json.hexDigit (n / 16), Json.hexDigit (n % 16)] ∧
      codeUnit ['0', '0', Json.hexDigit (n / 16), Json.hexDigit (n % 16)] = n := by
  unfold HexDigits
  revert n
  decide

theorem characters_flatMap (chars : List Char) : Characters (chars.flatMap Json.escapeChar) chars := by
  induction chars with
  | nil => exact .nil
  | cons c chars ih =>
    rw [List.flatMap_cons]
    fun_cases Json.escapeChar c
    case case8 small =>
      obtain ⟨digits, code⟩ := codeUnit_of_small small
      exact .unit digits code ih
    case case9 quote slash _ _ _ _ _ large =>
      exact .plain (not_lt.1 large) quote slash ih
    all_goals
      rename_i here
      rw [here]
      exact .escaped (by simp [escapes]) ih

theorem quotes_quote (s : String) : Quotes (Json.quote s).toList s :=
  ⟨s.toList.flatMap Json.escapeChar, by simp [Json.quote], characters_flatMap _⟩

end JsonText

end Condense
