import Condense.Output.Quoted
import Condense.Token.Scanner
import Mathlib.Data.List.Induction

/-!
A quoted text is read back as the text it quotes, whatever follows the closing quote.
-/

namespace Condense.Scanner

section Run

variable {α β : Type} (s : Scanner)

@[simp] theorem run_bind (x : Scan α) (f : α → Scan β) : (x >>= f).run s = (f (x.run s).1).run (x.run s).2 := rfl

@[simp] theorem run_pure (a : α) : (pure a : Scan α).run s = (a, s) := rfl

@[simp] theorem run_get : (get : Scan Scanner).run s = (s, s) := rfl

theorem run_modifyGet (f : Scanner → α × Scanner) : (modifyGet f : Scan α).run s = f s := rfl

@[simp] theorem run_here : here.run s = (s.cursor, s) := rfl

@[simp] theorem run_moveTo (cursor : Cursor) : (moveTo cursor).run s = ((), { s with cursor }) := rfl

@[simp] theorem run_advance : advance.run s = (s.cursor.peek, { s with cursor := s.cursor.advance }) := rfl

theorem run_eat_of_ne {expected : Char} (other : s.cursor.rest.head? ≠ some expected) :
    (eat expected).run s = (false, s) := by
  have none : s.cursor.eat? expected = none := by
    unfold Cursor.eat?
    split
    · rename_i c rest ahead
      have different : c ≠ expected := by simpa [ahead] using other
      simp [different]
    · rfl
  rw [eat, run_modifyGet, none]

end Run

end Condense.Scanner

namespace Condense

/-- Whether one place follows another on the same line, with `rest` behind it. -/
structure Cursor.Reaches (start stop : Cursor) (rest : List Char) : Prop where
  rest : stop.rest = rest
  line : stop.position.line = start.position.line
  passedLine : stop.passedLine = start.passedLine

namespace Cursor

variable {cursor : Cursor} {c : Char} {rest : List Char}

theorem Reaches.trans {start middle stop : Cursor} {text : List Char} (first : start.Reaches middle text)
    (second : middle.Reaches stop rest) : start.Reaches stop rest :=
  ⟨second.rest, second.line.trans first.line, second.passedLine.trans first.passedLine⟩

theorem reaches_skip {text : List Char} (ahead : cursor.rest = text ++ rest) :
    cursor.Reaches (cursor.skip text.length) rest :=
  ⟨by simp [skip, ahead], rfl, rfl⟩

theorem reaches_advance (ahead : cursor.rest = c :: rest) : cursor.Reaches cursor.advance rest :=
  ⟨by simp [advance, skip, ahead], rfl, rfl⟩

theorem peek_of_rest (ahead : cursor.rest = c :: rest) : cursor.peek = c := by
  simp [peek, ahead]

theorem atEnd_of_rest (ahead : cursor.rest = c :: rest) : cursor.atEnd = false := by
  simp [atEnd, ahead]

end Cursor

namespace Scanner

open Cursor List

variable {α β : Type} {s : Scanner} {rest : List Char} {inlineSafe : Bool} {quote c : Char}

/-- Whether a scan yields `a` and stops at `rest` on the same line, and changes nothing but the place. -/
def Reads (x : Scan α) (s : Scanner) (a : α) (rest : List Char) : Prop :=
  ∃ cursor, s.cursor.Reaches cursor rest ∧ x.run s = (a, { s with cursor })

theorem run_eat_of_head (ahead : s.cursor.rest = c :: rest) :
    (eat c).run s = (true, { s with cursor := s.cursor.advance }) := by
  have found : s.cursor.eat? c = some s.cursor.advance := by simp [eat?, ahead]
  rw [eat, run_modifyGet, found]

theorem isDigitOf_hexDigit {n : Nat} (small : n < 16) :
    isDigitOf 16 (Json.hexDigit n) ∧ hexDigitValue (Json.hexDigit n) = n := by
  revert n
  decide

def hexValue (digits : List Char) : Nat :=
  digits.foldl (fun code c => code * 16 + hexDigitValue c) 0

theorem reads_hexDigits {digits : List Char} (ahead : s.cursor.rest = digits ++ rest)
    (valid : digits.all (isDigitOf 16)) (value : hexValue digits = c.toNat) :
    Reads (scanHexDigits digits.length) s (some c) rest := by
  refine ⟨s.cursor.skip digits.length, reaches_skip ahead, ?_⟩
  have taken : s.cursor.rest.take digits.length = digits := by simp [ahead]
  have char : c.toNat.isValidChar := c.valid
  simp only [scanHexDigits, run_bind, run_here, taken, valid, decide_true, Bool.and_self, if_true, run_moveTo,
    run_pure]
  rw [← hexValue, value, codePoint?, if_pos char, Char.ofNat_toNat]

/-- Whether the scanner, behind a backslash, reads an escape as the character and stops at `rest`. -/
def ReadsEscape (s : Scanner) (c : Char) (rest : List Char) : Prop :=
  Reads scanStringEscape s [c] rest

theorem readsEscape_letter {letter : Char} (ahead : s.cursor.rest = letter :: rest)
    (known : (letter, c) ∈ [('n', '\n'), ('t', '\t'), ('r', '\r'), ('b', '\x08'), ('f', '\x0c')]) :
    ReadsEscape s c rest := by
  refine ⟨s.cursor.advance, reaches_advance ahead, ?_⟩
  have peeked := peek_of_rest ahead
  simp only [mem_cons, not_mem_nil, or_false, Prod.mk.injEq] at known
  rcases known with ⟨rfl, rfl⟩ | ⟨rfl, rfl⟩ | ⟨rfl, rfl⟩ | ⟨rfl, rfl⟩ | ⟨rfl, rfl⟩ <;>
    simp only [scanStringEscape, run_bind, run_here, peeked, run_moveTo, run_pure]

/-- Characters that no escape is named after. -/
theorem run_scanStringEscape (peeked : s.cursor.peek = c) (other : c ∉ ['n', 't', 'r', 'b', 'f', 'v', 'x', 'u']) :
    scanStringEscape.run s = if isDigitOf 8 c then
        let (code, s) := (scanOctal s.cursor.advance.rest.length (hexDigitValue c)).run
          { s with cursor := s.cursor.advance }
        ([Char.ofNat code], s)
      else if isLineTerminator c then ([], { s with cursor := s.cursor.advanceCounting })
      else ([c], { s with cursor := s.cursor.advance }) := by
  simp only [mem_cons, not_mem_nil, or_false, not_or] at other
  simp only [scanStringEscape, run_bind, run_here, peeked]
  split
  case h_9 =>
    split
    · rfl
    · split <;> rfl
  all_goals simp_all

/-- Any other character behind a backslash stands for itself. -/
theorem readsEscape_self (ahead : s.cursor.rest = c :: rest)
    (other : c ∈ ['\\', '/', '"', '\'']) : ReadsEscape s c rest := by
  refine ⟨s.cursor.advance, reaches_advance ahead, ?_⟩
  obtain ⟨noDigit, noLine, noLetter⟩ : isDigitOf 8 c = false ∧ isLineTerminator c = false ∧
      c ∉ ['n', 't', 'r', 'b', 'f', 'v', 'x', 'u'] := by
    simp only [mem_cons, not_mem_nil, or_false] at other
    rcases other with rfl | rfl | rfl | rfl <;> decide
  rw [run_scanStringEscape (peek_of_rest ahead) noLetter, noDigit, noLine]
  rfl

theorem readsEscape_hex {n : Nat}
    (ahead : s.cursor.rest = 'x' :: Json.hexDigit (n / 16) :: Json.hexDigit (n % 16) :: rest)
    (small : n < 256) (same : c.toNat = n) : ReadsEscape s c rest := by
  obtain ⟨first, value⟩ := isDigitOf_hexDigit (show n / 16 < 16 by omega)
  obtain ⟨second, value'⟩ := isDigitOf_hexDigit (show n % 16 < 16 by omega)
  have reaches := reaches_advance ahead
  have total : hexValue [Json.hexDigit (n / 16), Json.hexDigit (n % 16)] = c.toNat := by
    simp only [hexValue, foldl_cons, foldl_nil, value, value', same]
    omega
  obtain ⟨cursor, further, run⟩ := reads_hexDigits (s := { s with cursor := s.cursor.advance }) reaches.rest
    (by simp [first, second]) total
  refine ⟨cursor, reaches.trans further, ?_⟩
  have run : (scanHexDigits 2).run { s with cursor := s.cursor.advance } = _ := run
  simp only [scanStringEscape, run_bind, run_here, peek_of_rest ahead, run_moveTo, run, run_pure]

/-- The characters that are written by their code, with its digits. -/
def separatorCodes : List (List Char × Char) :=
  [(['2', '0', '2', '8'], '\u2028'), (['2', '0', '2', '9'], '\u2029'), (['f', 'e', 'f', 'f'], '\ufeff')]

theorem readsEscape_unicode (digits : List Char) (ahead : s.cursor.rest = 'u' :: (digits ++ rest))
    (known : (digits, c) ∈ separatorCodes) : ReadsEscape s c rest := by
  have facts : ∀ entry ∈ separatorCodes,
      entry.1.length = 4 ∧ entry.1.all (isDigitOf 16) ∧ entry.1.head? ≠ some '\x7b' ∧ entry.1 ≠ [] ∧
        hexValue entry.1 = entry.2.toNat := by decide
  obtain ⟨four, valid, noBrace, some, value⟩ := facts _ known
  have reaches := reaches_advance ahead
  have ahead' : ({ s with cursor := s.cursor.advance } : Scanner).cursor.rest = digits ++ rest := reaches.rest
  obtain ⟨cursor, further, run⟩ := reads_hexDigits ahead' valid value
  rw [four] at run
  have noBrace' : ({ s with cursor := s.cursor.advance } : Scanner).cursor.rest.head? ≠ Option.some '\x7b' := by
    rw [ahead', head?_append]
    cases digits with
    | nil => exact absurd rfl some
    | cons first more => exact noBrace
  refine ⟨cursor, reaches.trans further, ?_⟩
  simp only [scanStringEscape, run_bind, run_here, peek_of_rest ahead, scanUnicodeEscape, run_advance,
    run_eat_of_ne _ noBrace', Bool.false_eq_true, if_false, run, Option.isNone_some, run_pure]

/-- As long as the value of the digits fits into 32 bits, the code is that value. -/
theorem foldl_accumulate {digits : List Char} (small : hexValue digits < Nat.pow 2 32) :
    digits.foldl accumulate 0 = hexValue digits := by
  induction digits using reverseRecOn with
  | nil => rfl
  | append_singleton digits c ih =>
    have value : hexValue (digits ++ [c]) = hexValue digits * 16 + hexDigitValue c := by simp [hexValue]
    have power : Nat.pow 2 32 = 4294967296 := rfl
    rw [power] at small ih
    rw [foldl_append, ih (by omega), foldl_cons, foldl_nil, accumulate, power, value,
      Nat.min_eq_left (by omega), Nat.mod_eq_of_lt (by omega)]

/-- A code in braces stands for the character with the value of its digits, however many zeros come first. If there is
no such character, this is reported. -/
theorem scanStringEscape_braced {digits : List Char}
    (ahead : s.cursor.rest = 'u' :: '\x7b' :: (digits ++ '\x7d' :: rest)) (some : digits ≠ [])
    (valid : digits.all (isDigitOf 16) = true) (small : hexValue digits < Nat.pow 2 32) :
    ∃ cursor, s.cursor.Reaches cursor rest ∧ scanStringEscape.run s =
      if (hexValue digits).isValidChar then ([Char.ofNat (hexValue digits)], { s with cursor })
      else (['u'], ((report .invalidUnicodeEscape s.cursor.position).run { s with cursor }).2) := by
  have letter := reaches_advance ahead
  have brace := reaches_advance letter.rest
  have inside := reaches_skip brace.rest
  have last := reaches_advance inside.rest
  have taken : s.cursor.advance.advance.rest.takeWhile (isDigitOf 16) = digits := by
    rw [brace.rest, takeWhile_append_of_pos (all_eq_true.mp valid)]
    simp [show isDigitOf 16 '\x7d' = false by decide]
  have digitsRun : (takeWhile (isDigitOf 16)).run { s with cursor := s.cursor.advance.advance } =
      (digits, { s with cursor := s.cursor.advance.advance.skip digits.length }) := by
    simp only [takeWhile, run_modifyGet, Cursor.takeWhile, taken]
  have opens := run_eat_of_head (s := { s with cursor := s.cursor.advance }) letter.rest
  have closes := run_eat_of_head (s := { s with cursor := s.cursor.advance.advance.skip digits.length }) inside.rest
  refine ⟨_, ((letter.trans brace).trans inside).trans last, ?_⟩
  by_cases char : (hexValue digits).isValidChar
  all_goals
    simp only [scanStringEscape, run_bind, run_here, peek_of_rest ahead, scanUnicodeEscape, run_advance, opens, if_true,
      digitsRun, isEmpty_eq_false_iff.mpr some, Bool.false_eq_true, if_false, closes, run_pure,
      foldl_accumulate small, codePoint?, char, Option.isNone_some, Option.isNone_none]

theorem scanStringEscape_braced_zeros : (scanStringEscape.run (new "u\x7b0000000041\x7d" {})).1 = ['A'] := by
  have ahead : (new "u\x7b0000000041\x7d" {}).cursor.rest = 'u' :: '\x7b' :: ("0000000041".toList ++ ['\x7d']) := rfl
  obtain ⟨_, -, run⟩ := scanStringEscape_braced ahead (by decide) (by decide) (by decide)
  rw [run]
  rfl

/-- Whether octal digits in front of `rest` are taken behind those of a value, and what the value is then. -/
inductive TakesOctal (rest : List Char) : Nat → List Char → Nat → Prop
  | stop {code : Nat} : (code < 32 → ∀ c ∈ rest.head?, isDigitOf 8 c = false) → TakesOctal rest code [] code
  | take {c : Char} {digits : List Char} {code value : Nat} : code < 32 → isDigitOf 8 c = true →
    TakesOctal rest (code * 8 + hexDigitValue c) digits value → TakesOctal rest code (c :: digits) value

theorem reads_scanOctal {digits : List Char} {code value : Nat} (takes : TakesOctal rest code digits value)
    (ahead : s.cursor.rest = digits ++ rest) : Reads (scanOctal (digits ++ rest).length code) s value rest := by
  induction takes generalizing s with
  | @stop code ends =>
    refine ⟨s.cursor, ⟨ahead, rfl, rfl⟩, ?_⟩
    cases rest with
    | nil => rfl
    | cons c rest =>
      have done : (code < 32 && isDigitOf 8 c) = false := by simpa using fun low => ends low c rfl
      simp only [nil_append, length_cons, scanOctal, run_bind, run_here, peek_of_rest ahead, done,
        Bool.false_eq_true, if_false, run_pure]
  | take low digit _ ih =>
    have reaches := reaches_advance ahead
    obtain ⟨cursor, further, run⟩ := ih (s := { s with cursor := s.cursor.advance }) reaches.rest
    refine ⟨cursor, reaches.trans further, ?_⟩
    simp only [cons_append, length_cons, scanOctal, run_bind, run_here, peek_of_rest ahead, low, digit,
      decide_true, Bool.and_self, if_true, run_advance, run]

/-- The digits of an octal escape that does not start with a needless zero: three if the first is at most 3, else two, or
as many as there are. -/
inductive OctalEscape (rest : List Char) : List Char → Prop
  | one {a : Char} : isDigitOf 8 a = true → (∀ c ∈ rest.head?, isDigitOf 8 c = false) → OctalEscape rest [a]
  | two {a b : Char} : isDigitOf 8 a = true → isDigitOf 8 b = true → hexDigitValue a ≠ 0 →
    (hexDigitValue a < 4 → ∀ c ∈ rest.head?, isDigitOf 8 c = false) → OctalEscape rest [a, b]
  | three {a b c : Char} : isDigitOf 8 a = true → isDigitOf 8 b = true → isDigitOf 8 c = true → hexDigitValue a ≠ 0 →
    hexDigitValue a < 4 → OctalEscape rest [a, b, c]

def octalValue (digits : List Char) : Nat :=
  digits.foldl (fun code c => code * 8 + hexDigitValue c) 0

section

variable {digits : List Char} (escape : OctalEscape rest digits) (zeros : Nat)

include escape

/-- Zeros in front of an octal escape are passed over. -/
theorem OctalEscape.takes : TakesOctal rest 0 (replicate zeros '0' ++ digits) (octalValue digits) := by
  have bound {c : Char} (digit : isDigitOf 8 c) : hexDigitValue c < 8 := by
    simp only [isDigitOf, Bool.and_eq_true, decide_eq_true_eq] at digit
    exact digit.2
  induction zeros with
  | zero =>
    cases escape with
    | one digit ends => exact .take (by decide) digit (.stop fun _ => ends)
    | two first second nonzero ends =>
      have low := bound first
      exact .take (by decide) first (.take (by omega) second (.stop fun _ => ends (by omega)))
    | three first second third nonzero small =>
      have low := bound second
      exact .take (by decide) first (.take (by omega) second (.take (by omega) third (.stop fun _ => by omega)))
  | succ zeros ih => exact .take (by decide) (by decide) ih

theorem readsEscape_octal (ahead : s.cursor.rest = replicate zeros '0' ++ digits ++ rest) :
    ReadsEscape s (Char.ofNat (octalValue digits)) rest := by
  have takes := escape.takes zeros
  have some : replicate zeros '0' ++ digits ≠ [] := by cases escape <;> simp
  generalize replicate zeros '0' ++ digits = text, octalValue digits = value at takes ahead some ⊢
  cases takes with
  | stop => exact absurd rfl some
  | @take c text _ _ _ digit takes =>
    have noLetter : c ∉ ['n', 't', 'r', 'b', 'f', 'v', 'x', 'u'] := by
      have none : ∀ c ∈ ['n', 't', 'r', 'b', 'f', 'v', 'x', 'u'], isDigitOf 8 c = false := by simp; decide
      intro member
      simp [none c member] at digit
    have reaches : s.cursor.Reaches s.cursor.advance (text ++ rest) := reaches_advance ahead
    rw [Nat.zero_mul, Nat.zero_add] at takes
    obtain ⟨cursor, further, run⟩ := reads_scanOctal (s := { s with cursor := s.cursor.advance }) takes reaches.rest
    refine ⟨cursor, reaches.trans further, ?_⟩
    rw [run_scanStringEscape (peek_of_rest ahead) noLetter, digit, reaches.rest, run]
    rfl

end

/-- Whether the scanner, inside a literal, takes `c` next and goes on at `rest`. -/
def ReadsChar (quote : Char) (s : Scanner) (c : Char) (rest : List Char) : Prop :=
  ∃ cursor, s.cursor.Reaches cursor rest ∧ ∀ start steps done,
    (scanStringFrom quote start (steps + 1) done).run s =
      (scanStringFrom quote start steps (c :: done)).run { s with cursor }

theorem readsChar_plain (ahead : s.cursor.rest = c :: rest) (noLine : isLineTerminator c = false) (noQuote : c ≠ quote)
    (noSlash : c ≠ '\\') : ReadsChar quote s c rest := by
  refine ⟨s.cursor.advance, reaches_advance ahead, fun start steps done => ?_⟩
  simp only [scanStringFrom, run_bind, run_here, atEnd_of_rest ahead, peek_of_rest ahead, noLine, noQuote,
    noSlash, Bool.or_self, Bool.false_eq_true, if_false, run_moveTo]

theorem readsChar_escaped {text : List Char} (ahead : s.cursor.rest = '\\' :: text) (some : text ≠ [])
    (noQuote : quote ≠ '\\') (escape : ReadsEscape { s with cursor := s.cursor.advance } c rest) :
    ReadsChar quote s c rest := by
  have reaches := reaches_advance ahead
  obtain ⟨cursor, further, run⟩ := escape
  refine ⟨cursor, reaches.trans further, fun start steps done => ?_⟩
  have noLine : isLineTerminator '\\' = false := by decide
  have more : s.cursor.advance.atEnd = false := by simpa [atEnd, reaches.rest] using some
  simp only [scanStringFrom, run_bind, run_here, atEnd_of_rest ahead, peek_of_rest ahead, noLine,
    noQuote.symm, Bool.or_self, Bool.false_eq_true, if_false, if_true, run_moveTo, more, run]
  rfl

/-- Whether what is ahead in a literal stands for the characters and ends in front of `rest`. -/
inductive Contents (quote : Char) (rest : List Char) : List Char → List Char → Prop
  | nil : Contents quote rest (quote :: rest) []
  | cons {c : Char} {ahead behind chars : List Char} :
    (∀ s : Scanner, s.cursor.rest = ahead → ReadsChar quote s c behind) → behind.length < ahead.length →
    Contents quote rest behind chars → Contents quote rest ahead (c :: chars)

/-- Characters and octal escapes behind a quote up to the next, and what they stand for. Zeros in front of an escape
are passed over. -/
inductive OctalText (quote : Char) (rest : List Char) : List Char → List Char → Prop
  | nil : OctalText quote rest (quote :: rest) []
  | plain {c : Char} {text chars : List Char} : isLineTerminator c = false → c ≠ quote → c ≠ '\\' →
    OctalText quote rest text chars → OctalText quote rest (c :: text) (c :: chars)
  | escape (zeros : Nat) {digits text chars : List Char} : OctalEscape text digits → OctalText quote rest text chars →
    OctalText quote rest ('\\' :: (replicate zeros '0' ++ digits ++ text))
      (Char.ofNat (octalValue digits) :: chars)

theorem OctalText.contents {text chars : List Char} (noSlash : quote ≠ '\\')
    (octal : OctalText quote rest text chars) : Contents quote rest text chars := by
  induction octal with
  | nil => exact .nil
  | plain noLine noQuote noSlash _ ih =>
    exact .cons (fun s ahead => readsChar_plain ahead noLine noQuote noSlash) (Nat.lt_succ_self _) ih
  | escape zeros escape _ ih =>
    refine .cons (fun s ahead => readsChar_escaped ahead ?_ noSlash ?_) (by simp; omega) ih
    · cases escape <;> simp
    · exact readsEscape_octal escape zeros (reaches_advance ahead).rest

section

variable {text chars : List Char} (quotes : quote = '"' ∨ quote = '\'') (contents : Contents quote rest text chars)
  (start : Position)

include quotes contents

theorem Contents.reads_from {steps : Nat} (enough : text.length ≤ steps) (done : List Char)
    (ahead : s.cursor.rest = text) : Reads (scanStringFrom quote start steps done) s (chars.reverse ++ done) rest := by
  induction contents generalizing s steps done with
  | nil =>
    obtain _ | fewer := steps
    · simp at enough
    have noLine : isLineTerminator quote = false := by rcases quotes with rfl | rfl <;> decide
    refine ⟨s.cursor.advance, reaches_advance ahead, ?_⟩
    simp only [scanStringFrom, run_bind, run_here, atEnd_of_rest ahead, peek_of_rest ahead, noLine,
      Bool.or_self, Bool.false_eq_true, if_false, if_true, run_moveTo, run_pure]
    rfl
  | @cons c _ behind _ reads shorter _ ih =>
    obtain _ | fewer := steps
    · omega
    obtain ⟨cursor, reaches, step⟩ := reads s ahead
    obtain ⟨last, further, run⟩ := ih (s := { s with cursor }) (show behind.length ≤ fewer by omega) (c :: done)
      reaches.rest
    refine ⟨last, reaches.trans further, ?_⟩
    rw [step, run]
    simp

theorem Contents.reads (noMarkers : s.settings.hasReplacements = false) (ahead : s.cursor.rest = text) :
    Reads (scanString quote start) s (.string (String.ofList chars)) rest := by
  subst ahead
  obtain ⟨cursor, reaches, run⟩ := contents.reads_from quotes start (Nat.le_succ _) [] rfl
  refine ⟨cursor, reaches, ?_⟩
  simp only [scanString, run_bind, run_here, run, run_get, run_pure, append_nil, reverse_reverse,
    Settings.substitute, noMarkers, Bool.false_eq_true, if_false]

end

open Quoted

theorem escape_head (quote : Char) (inlineSafe : Bool) (before : Option Char) (c : Char) (text : List Char) :
    ∃ d more, escape quote inlineSafe before c text = d :: more ∧ (d = '\\' ∨ d = c) := by
  fun_cases escape quote inlineSafe before c text <;> simp

section

variable {before : Option Char} {text : List Char} (quotes : quote = '"' ∨ quote = '\'')

include quotes

/-- What follows a zero in a literal is no octal digit if no digit follows it in the text. -/
theorem escapeAll_head (alone : isDigitFirst text = false) :
    ∀ c ∈ (escapeAll quote inlineSafe before text ++ quote :: rest).head?, isDigitOf 8 c = false := by
  have delimiters : isDigitOf 8 '"' = false ∧ isDigitOf 8 '\'' = false ∧ isDigitOf 8 '\\' = false := by decide
  cases text with
  | nil => rcases quotes with rfl | rfl <;> simp [escapeAll, delimiters]
  | cons first more =>
    have noDigit : isDigitOf 8 first = false := by
      have noDigit : first.isDigit = false := alone
      simp only [isDigitOf, hexDigitValue, noDigit, Bool.false_eq_true, if_false, Bool.false_or, Bool.and_eq_false_iff]
      split
      · exact .inr (by simp)
      · split
        · exact .inr (by simp)
        · simp_all
    obtain ⟨d, others, same, kind⟩ := escape_head quote inlineSafe before first more
    rcases kind with rfl | rfl <;> simp [escapeAll, same, delimiters, noDigit]

theorem readsChar_escape (ahead : s.cursor.rest = escape quote inlineSafe before c text ++
      (escapeAll quote inlineSafe (some c) text ++ quote :: rest)) :
    ReadsChar quote s c (escapeAll quote inlineSafe (some c) text ++ quote :: rest) := by
  have noSlash : quote ≠ '\\' := by rcases quotes with rfl | rfl <;> decide
  have alone (noDigit : isDigitFirst text = false) :
      ∀ d ∈ (escapeAll quote inlineSafe (some c) text ++ quote :: rest).head?, isDigitOf 8 d = false :=
    escapeAll_head quotes noDigit
  generalize escapeAll quote inlineSafe (some c) text ++ quote :: rest = further at ahead alone
  revert ahead
  fun_cases escape quote inlineSafe before c text <;> intro ahead
  case case15 noSlash' noLine noReturn _ _ _ _ noSeparator noParagraph _ _ noQuote _ =>
    refine readsChar_plain ahead ?_ noQuote noSlash'
    have apart {d : Char} (other : c ≠ d) : c.toNat ≠ d.toNat := fun same => other (Char.toNat_inj.mp same)
    simp only [isLineTerminator, Bool.or_eq_false_iff, beq_eq_false_iff_ne]
    exact ⟨⟨⟨noLine, noReturn⟩, apart noSeparator⟩, apart noParagraph⟩
  all_goals
    refine readsChar_escaped ahead (by simp) noSlash ?_
    replace ahead := (reaches_advance ahead).rest
  case case1 here => exact readsEscape_self (here ▸ ahead) (by simp [here])
  case case2 here | case3 here | case4 here | case5 here | case6 here => exact readsEscape_letter ahead (by simp [here])
  case case7 here _ => exact readsEscape_hex (n := 0) ahead (by decide) (by rw [here]; rfl)
  case case8 here digit =>
    exact here ▸ readsEscape_octal (.one (a := '0') (by decide) (alone (by simpa using digit))) 0 ahead
  case case9 here => exact readsEscape_unicode ['2', '0', '2', '8'] ahead (by simp [separatorCodes, here])
  case case10 here => exact readsEscape_unicode ['2', '0', '2', '9'] ahead (by simp [separatorCodes, here])
  case case11 here => exact readsEscape_unicode ['f', 'e', 'f', 'f'] ahead (by simp [separatorCodes, here])
  case case12 here =>
    simp only [Bool.and_eq_true, decide_eq_true_eq] at here
    exact readsEscape_self (here.1.1 ▸ ahead) (by simp [here.1.1])
  case case13 here => exact readsEscape_self ahead (by rcases quotes with q | q <;> simp [here, q])
  case case14 here =>
    simp only [Bool.or_eq_true, decide_eq_true_eq] at here
    refine readsEscape_hex ahead ?_ rfl
    rcases here with small | rfl
    · omega
    · decide

theorem contents_escapeAll (text : List Char) (before : Option Char) :
    Contents quote rest (escapeAll quote inlineSafe before text ++ quote :: rest) text := by
  induction text generalizing before with
  | nil => exact .nil
  | cons c text ih =>
    rw [escapeAll, append_assoc]
    refine .cons (fun _ => readsChar_escape quotes) ?_ (ih (some c))
    obtain ⟨d, more, same, -⟩ := escape_head quote inlineSafe before c text
    simp only [same, cons_append, length_cons, length_append]
    omega

end

theorem delimiter_cases (text : List Char) : delimiter text = '"' ∨ delimiter text = '\'' := by
  unfold delimiter
  split <;> simp

end Scanner

end Condense
