import Mathlib.Data.List.Induction
import Mathlib.Data.Nat.Digits.Defs
import Mathlib.Tactic.Ring
import Mathlib.Tactic.FieldSimp
import Condense.Output.Number
import Condense.Proofs.Decimal.Sign
import Condense.Proofs.Json.Grammar

/-!
The spellings of a decimal are numerals that stand for it.
-/

namespace Condense

open Decimal JsonText List

variable {d : Decimal} {x : Float} {cs : List Char} {n k : Nat}

/-- The rational that a decimal is. -/
def Decimal.value (d : Decimal) : ℚ :=
  d.digits * 10 ^ d.exponent

theorem digitsValue_eq (cs : List Char) : digitsValue cs = Nat.ofDigitChars 10 cs 0 := by
  unfold digitsValue Nat.ofDigitChars
  congr 1
  funext n c
  rw [Nat.mul_comm]

@[simp] theorem digitsValue_toDigits (n : Nat) : digitsValue (Nat.toDigits 10 n) = n := by
  rw [digitsValue_eq, Nat.ofDigitChars_ten_toDigits]

theorem digitsValue_zeros_append (count : Nat) (cs : List Char) :
    digitsValue (List.replicate count '0' ++ cs) = digitsValue cs := by
  rw [digitsValue_eq, digitsValue_eq, Nat.ofDigitChars_append, Nat.ofDigitChars_replicate_zero, Nat.mul_zero]

theorem digitsValue_append_zeros (cs : List Char) (count : Nat) :
    digitsValue (cs ++ List.replicate count '0') = digitsValue cs * 10 ^ count := by
  rw [digitsValue_eq, digitsValue_eq, Nat.ofDigitChars_append, Nat.ofDigitChars_replicate_zero, Nat.mul_comm]

theorem all_isDigit_toDigits (n : Nat) : (Nat.toDigits 10 n).all Char.isDigit := by
  rw [all_eq_true]
  intro c member
  exact Nat.isDigit_of_mem_toDigits (by decide) (by decide) member

theorem digits_toDigits (n : Nat) : Digits (Nat.toDigits 10 n) :=
  ⟨Nat.toDigits_ne_nil, all_isDigit_toDigits n⟩

theorem all_isDigit_zeros (count : Nat) : (List.replicate count '0').all Char.isDigit := by
  simp

theorem head?_toDigits (some : n ≠ 0) : (Nat.toDigits 10 n).head? ≠ Option.some '0' := by
  induction n using Nat.strongRecOn with
  | ind n ih =>
    by_cases small : n < 10
    · rw [Nat.toDigits_of_lt_base small]
      have digit : ∀ n < 10, n ≠ 0 → [Nat.digitChar n].head? ≠ Option.some '0' := by decide
      exact digit n small some
    · rw [Nat.toDigits_of_base_le (by decide) (not_lt.1 small), head?_append_of_ne_nil _ Nat.toDigits_ne_nil]
      exact ih (n / 10) (by omega) (by omega)

/-- The last digit is the remainder. -/
theorem getLast?_toDigits (trimmed : n % 10 ≠ 0) : (Nat.toDigits 10 n).getLast? ≠ some '0' := by
  have digit : ∀ n < 10, n ≠ 0 → some (Nat.digitChar n) ≠ some '0' := by decide
  by_cases small : n < 10
  · rw [Nat.toDigits_of_lt_base small, getLast?_singleton]
    exact digit n small (by omega)
  · rw [Nat.toDigits_of_base_le (by decide) (not_lt.1 small), getLast?_concat]
    exact digit (n % 10) (Nat.mod_lt n (by decide)) trimmed

section

variable {whole fraction : List Char}

theorem takeWhile_digits (rest : List Char) (digits : whole.all Char.isDigit)
    (stops : ∀ c ∈ rest.head?, c.isDigit = false) :
    (whole ++ rest).takeWhile Char.isDigit = whole ∧ (whole ++ rest).dropWhile Char.isDigit = rest := by
  rw [all_eq_true] at digits
  rw [takeWhile_append_of_pos digits, dropWhile_append_of_pos digits]
  cases rest with
  | nil => simp
  | cons c rest => simp [stops c rfl]

/-- A numeral stands for the decimal that is read from it. -/
theorem value_ofText (cs : List Char) : (ofText cs).value = magnitudeOf cs := by
  unfold value ofText magnitudeOf
  generalize cs.dropWhile Char.isDigit = behind
  dsimp only
  split
  · rfl
  · simp_all only [imp_false]
    rfl

theorem head?_fraction {fraction rest : List Char} (fraction' : Fraction fraction) (exponent' : Exponent rest) :
    ∀ c ∈ (fraction ++ rest).head?, c ∈ ['.', 'e', 'E'] := by
  rcases fraction' with rfl | ⟨digits, rfl, -⟩
  · rcases exponent' with rfl | ⟨mark, sign, digits, rfl, known, -⟩
    · simp
    · simpa using Or.inr known
  · simp

theorem ofText_parts {exponent : List Char} (digits : whole.all Char.isDigit) (fraction' : Fraction fraction)
    (exponent' : Exponent exponent) :
    ofText (whole ++ (fraction ++ exponent)) =
      { digits := digitsValue (whole ++ fraction.tail),
        exponent := exponentValue exponent - fraction.tail.length } := by
  have marks : ∀ c ∈ ['.', 'e', 'E'], c.isDigit = false := by simp
  have parts := takeWhile_digits _ digits fun c first => marks c (head?_fraction fraction' exponent' c first)
  have last : ∀ c ∈ exponent.head?, _ := head?_fraction (.inl rfl) exponent'
  unfold ofText
  rw [parts.1, parts.2]
  rcases fraction' with rfl | ⟨places, rfl, places'⟩
  · have noPoint : ∀ rest, exponent ≠ '.' :: rest := by
      rcases exponent' with rfl | ⟨mark, sign, digits, rfl, known, -⟩
      · simp
      · rintro rest ⟨⟩
        simp at known
    simp
  · have parts := takeWhile_digits exponent places'.2 fun c first => marks c (last c first)
    simp [parts]

theorem magnitudeOf_parts {exponent : List Char} (digits : whole.all Char.isDigit)
    (fraction' : Fraction fraction) (exponent' : Exponent exponent) :
    magnitudeOf (whole ++ (fraction ++ exponent)) =
      digitsValue (whole ++ fraction.tail) * 10 ^ (exponentValue exponent - fraction.tail.length) := by
  rw [← value_ofText, ofText_parts digits fraction' exponent', value]

theorem toString_int (e : Int) :
    (0 ≤ e ∧ (toString e).toList = Nat.toDigits 10 e.toNat) ∨
      (e < 0 ∧ (toString e).toList = '-' :: Nat.toDigits 10 (-e).toNat) := by
  cases e with
  | ofNat n => exact .inl ⟨Int.natCast_nonneg n, by simp [Int.toString_eq_repr, Int.repr]⟩
  | negSucc n => exact .inr ⟨Int.negSucc_lt_zero n, by simp [Int.toString_eq_repr, Int.repr, Int.neg_negSucc]⟩

theorem exponent_toString (e : Int) : Exponent ('e' :: (toString e).toList) := by
  rcases toString_int e with ⟨-, text⟩ | ⟨-, text⟩
  · exact .inr ⟨'e', [], _, by rw [text, nil_append], by simp, by simp, digits_toDigits _⟩
  · exact .inr ⟨'e', ['-'], _, by rw [text, singleton_append], by simp, by simp, digits_toDigits _⟩

theorem exponentValue_digits (mark : Char) (digits : Digits whole) : exponentValue (mark :: whole) = digitsValue whole := by
  obtain ⟨c, rest, rfl⟩ := exists_cons_of_ne_nil digits.1
  have digit := all_eq_true.1 digits.2 c (.head _)
  have unsigned : c ≠ '-' ∧ c ≠ '+' := by constructor <;> rintro rfl <;> cases digit
  simp [exponentValue, unsigned]

theorem exponentValue_toString (e : Int) : exponentValue ('e' :: (toString e).toList) = e := by
  rcases toString_int e with ⟨large, text⟩ | ⟨negative, text⟩
  · rw [text, exponentValue_digits 'e' (digits_toDigits _), digitsValue_toDigits, Int.toNat_of_nonneg large]
  · rw [text]
    simp [exponentValue, Int.toNat_of_nonneg (show 0 ≤ -e by omega)]

end

namespace Decimal

def plain (d : Decimal) : List Char :=
  plainText (Nat.toDigits 10 d.digits) (.ofInt d.exponent)

def scientific (d : Decimal) : List Char :=
  scientificText (Nat.toDigits 10 d.digits) (.ofInt d.exponent)

def shortestSpelling (d : Decimal) : List Char :=
  shortestText (Nat.toDigits 10 d.digits) (.ofInt d.exponent)

/-- Zero is written without an exponent, and nothing is out of the range of 32 bits. -/
structure Proper (d : Decimal) : Prop where
  zero : d.digits ≠ 0 ∨ d.exponent = 0
  short : decimalLength d.digits < 2147483648
  near : d.exponent.natAbs < 2147483648

/-- The shorter of the two spellings is taken: without an exponent to write, that is the plain one. -/
theorem shortestSpelling_eq (d : Decimal) :
    d.shortestSpelling = if d.scientific.length < d.plain.length then d.scientific else d.plain := by
  unfold shortestSpelling shortestText scientific plain
  generalize Int32.ofInt d.exponent = e
  by_cases zero : e = 0
  · subst zero
    simp [plainText, scientificText]
  · simp [zero]

theorem length_shortestSpelling (d : Decimal) :
    d.shortestSpelling.length ≤ d.plain.length ∧ d.shortestSpelling.length ≤ d.scientific.length := by
  rw [shortestSpelling_eq]
  split <;> omega

section

variable (proper : d.Proper)

include proper

theorem toInt_exponent : (Int32.ofInt d.exponent).toInt = d.exponent := by
  have near := proper.near
  exact Int32.toInt_ofInt_of_le (by omega) (by omega)

/-- Zeros stand behind the digits, or a point stands before the last of them. -/
theorem plain_cases :
    0 ≤ d.exponent ∧ d.plain = Nat.toDigits 10 d.digits ++ List.replicate d.exponent.toNat '0' ∨
      ∃ whole fraction, d.plain = whole ++ '.' :: fraction ∧ d.exponent = -(fraction.length : ℤ) ∧
        whole.all Char.isDigit ∧ Digits fraction ∧ digitsValue (whole ++ fraction) = d.digits ∧
        (whole = [] ∨ whole.head? = (Nat.toDigits 10 d.digits).head?) := by
  have digits := all_isDigit_toDigits d.digits
  have value := digitsValue_toDigits d.digits
  have short := proper.short
  have near := proper.near
  unfold decimalLength at short
  unfold plain plainText
  simp only [Int32.le_iff_toInt_le, Int32.lt_iff_toInt_lt, toInt_exponent proper, Int32.toInt_zero,
    ← Int32.ofInt_eq_ofNat, ← Int32.ofInt_add, ← Int32.ofInt_neg]
  generalize Nat.toDigits 10 d.digits = cs at digits value short ⊢
  split
  · exact .inl ⟨‹_›, rfl⟩
  right
  rw [Int32.toInt_ofInt_of_le (by omega) (by omega), Int32.toInt_ofInt_of_le (by omega) (by omega)]
  split
  · have parts := take_append_drop (cs.length + d.exponent).toNat cs
    rw [← parts, all_append, Bool.and_eq_true] at digits
    refine ⟨_, _, rfl, ?_, digits.1, ⟨ne_nil_of_length_pos ?_, digits.2⟩, by rw [parts, value],
      .inr (by rw [head?_take, if_neg (by omega)])⟩
    all_goals
      rw [length_drop]
      omega
  · refine ⟨[], _, rfl, ?_, rfl, ⟨ne_nil_of_length_pos ?_, by rw [all_append, all_isDigit_zeros, digits]; rfl⟩,
      by rw [nil_append, digitsValue_zeros_append, value], .inl rfl⟩
    all_goals
      rw [length_append, length_replicate]
      omega

theorem scientific_eq : d.scientific = Nat.toDigits 10 d.digits ++ 'e' :: (toString d.exponent).toList :=
  congrArg (fun e : Int => Nat.toDigits 10 d.digits ++ 'e' :: (toString e).toList) (toInt_exponent proper)

theorem magnitudeOf_scientific : magnitudeOf d.scientific = d.value := by
  have parts := magnitudeOf_parts (all_isDigit_toDigits d.digits) (.inl rfl) (exponent_toString d.exponent)
  rw [exponentValue_toString, tail_nil, append_nil, digitsValue_toDigits] at parts
  rw [scientific_eq proper]
  exact parts.trans (by rw [length_nil, Nat.cast_zero, sub_zero, value])

theorem magnitudeOf_plain : magnitudeOf d.plain = d.value := by
  unfold value
  rcases plain_cases proper with ⟨large, text⟩ | ⟨whole, fraction, text, exponent, before, behind, digits, -⟩
  · have zeros : (Nat.toDigits 10 d.digits ++ List.replicate d.exponent.toNat '0').all Char.isDigit := by
      rw [all_append, all_isDigit_toDigits, all_isDigit_zeros]
      rfl
    have parts := magnitudeOf_parts zeros (.inl rfl) (.inl rfl)
    simp only [append_nil, tail_nil, digitsValue_append_zeros, digitsValue_toDigits] at parts
    rw [text, parts, Nat.cast_mul, Nat.cast_pow, Nat.cast_ofNat, ← zpow_natCast, Int.toNat_of_nonneg large]
    exact mul_one _
  · have parts := magnitudeOf_parts before (.inr ⟨fraction, rfl, behind⟩) (.inl rfl)
    rw [append_nil, tail_cons, digits] at parts
    rw [text, parts, exponent, exponentValue, zero_sub]

theorem magnitudeOf_shortestSpelling : magnitudeOf d.shortestSpelling = d.value := by
  rw [shortestSpelling_eq]
  split
  · exact magnitudeOf_scientific proper
  · exact magnitudeOf_plain proper

end

/-- A numeral without a sign as it stands in JSON: a digit stands before the point. -/
def withZero (cs : List Char) : List Char :=
  if cs.head? = some '.' then '0' :: cs else cs

theorem magnitudeOf_withZero (cs : List Char) : magnitudeOf (withZero cs) = magnitudeOf cs := by
  unfold withZero
  split
  · rename_i point
    cases cs with
    | nil => cases point
    | cons c rest =>
      simp [magnitudeOf, digitsValue]
  · rfl

/-- A numeral in source code: no zero stands before another digit, and none has to stand before a point. -/
def Numeral (cs : List Char) : Prop :=
  ∃ whole fraction exponent, cs = whole ++ (fraction ++ exponent) ∧ (Whole whole ∨ whole = [] ∧ fraction ≠ []) ∧
    Fraction fraction ∧ Exponent exponent

theorem Numeral.head? (numeral : Numeral cs) :
    ∃ c rest, cs = c :: rest ∧ (c.isDigit ∨ c = '.') ∧
      (c.isDigit || c == '.' && rest.head?.any Char.isDigit) := by
  obtain ⟨whole, fraction, exponent, rfl, digits | ⟨rfl, some⟩, fraction', -⟩ := numeral
  · obtain ⟨c, rest, rfl⟩ := exists_cons_of_ne_nil digits.1.1
    have digit := all_eq_true.1 digits.1.2 c (.head _)
    exact ⟨c, _, rfl, .inl digit, by simp [digit]⟩
  · obtain ⟨places, rfl, digits⟩ := fraction'.resolve_left some
    obtain ⟨c, rest, rfl⟩ := exists_cons_of_ne_nil digits.1
    exact ⟨'.', _, rfl, .inr rfl, by simp [all_eq_true.1 digits.2 c (.head _)]⟩

theorem Numeral.number (numeral : Numeral cs) : Number (withZero cs) := by
  obtain ⟨whole, fraction, exponent, rfl, digits | ⟨rfl, some⟩, fraction', exponent'⟩ := numeral
  · have first : (whole ++ (fraction ++ exponent)).head? ≠ some '.' := by
      rw [head?_append_of_ne_nil _ digits.1.1]
      intro point
      have digit := all_eq_true.1 digits.1.2 _ (mem_of_mem_head? point)
      exact absurd digit (by decide)
    rw [withZero, if_neg first]
    exact ⟨[], whole, fraction, exponent, rfl, by simp, digits, fraction', exponent'⟩
  · obtain ⟨places, rfl, -⟩ := fraction'.resolve_left some
    exact ⟨[], ['0'], _, exponent, rfl, by simp, ⟨⟨by simp, by decide⟩, .inl rfl⟩, fraction', exponent'⟩

theorem numeral_plain (proper : d.Proper) : Numeral d.plain := by
  rcases plain_cases proper with ⟨-, text⟩ | ⟨whole, fraction, text, exponent, before, behind, -, first⟩
  · refine ⟨_, [], [], by simpa using text, .inl ?_, .inl rfl, .inl rfl⟩
    by_cases zero : d.digits = 0
    · rw [zero, proper.zero.resolve_left (not_not_intro zero)]
      exact ⟨⟨by simp, by decide⟩, .inl (by simp)⟩
    · refine ⟨⟨by simp, by rw [all_append, all_isDigit_toDigits, all_isDigit_zeros]; rfl⟩, .inr ?_⟩
      rw [head?_append_of_ne_nil _ Nat.toDigits_ne_nil]
      exact head?_toDigits zero
  · have some : d.digits ≠ 0 := proper.zero.resolve_right (by have := length_pos_iff.2 behind.1; omega)
    refine ⟨whole, '.' :: fraction, [], by simpa using text, ?_, .inr ⟨_, rfl, behind⟩, .inl rfl⟩
    by_cases empty : whole = []
    · exact .inr ⟨empty, cons_ne_nil _ _⟩
    · exact .inl ⟨⟨empty, before⟩, .inr (first.resolve_left empty ▸ head?_toDigits some)⟩

theorem numeral_shortestSpelling (proper : d.Proper) : Numeral d.shortestSpelling := by
  rw [shortestSpelling_eq]
  split
  · rename_i short
    have some : d.digits ≠ 0 := proper.zero.resolve_right fun zero => by
      rw [scientific, plain, zero] at short
      simp [plainText, scientificText] at short
    rw [scientific_eq proper]
    exact ⟨_, [], _, rfl, .inl ⟨digits_toDigits _, .inr (head?_toDigits some)⟩, .inl rfl, exponent_toString _⟩
  · exact numeral_plain proper

/-- No zero is left at the end of the digits, and the exponent grows by at most their number. -/
theorem trimZeros_spec (d : Decimal) :
    (d.digits ≠ 0 → d.trimZeros.digits % 10 ≠ 0) ∧ d.trimZeros.digits ≤ d.digits ∧
      d.exponent ≤ d.trimZeros.exponent ∧ d.trimZeros.exponent ≤ d.exponent + decimalLength d.digits := by
  have go (steps : Nat) (d : Decimal) (short : decimalLength d.digits ≤ steps) :
      (d.digits ≠ 0 → (trimZeros.go steps d).digits % 10 ≠ 0) ∧ (trimZeros.go steps d).digits ≤ d.digits ∧
        d.exponent ≤ (trimZeros.go steps d).exponent ∧ (trimZeros.go steps d).exponent ≤ d.exponent + steps := by
    induction steps generalizing d with
    | zero => exact absurd (length_eq_zero_iff.1 (Nat.le_zero.1 short)) Nat.toDigits_ne_nil
    | succ steps ih =>
      unfold trimZeros.go
      split
      · rename_i divides
        simp only [Bool.and_eq_true, decide_eq_true_eq, bne_iff_ne] at divides
        have shorter : decimalLength (d.digits / 10) ≤ steps := by
          rw [decimalLength, Nat.toDigits_of_base_le (by decide) (by omega), length_append] at short
          exact Nat.le_of_succ_le_succ short
        have spec := ih { digits := d.digits / 10, exponent := d.exponent + 1 } shorter
        dsimp only at spec
        omega
      · rename_i other
        simp only [Bool.and_eq_true, decide_eq_true_eq, bne_iff_ne] at other
        omega
  exact go _ d le_rfl

end Decimal

end Condense
