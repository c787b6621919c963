import Condense.Proofs.Decimal.Numeral

/-!
A printed number is taken apart into the digits and the power of ten it was printed from, and what is spelled from them
stands for the same rational. For a double, neither comes near the range of 32 bits.
-/

namespace Condense

open Decimal JsonText List

variable {d : Decimal} {x : Float} {cs whole fraction exponent body : List Char} {mark : Char}

/-- Digits that do not start with a zero are those of the number they stand for. -/
theorem toDigits_digitsValue (digits : Digits cs) (first : cs.head? ≠ some '0') :
    Nat.toDigits 10 (digitsValue cs) = cs := by
  have digit {c : Char} (digit : c.isDigit) : c.toNat - 48 < 10 ∧ Nat.digitChar (c.toNat - 48) = c := by
    have code : 48 ≤ c.toNat ∧ c.toNat ≤ 57 := by simpa [Char.isDigit, UInt32.le_iff_toNat_le] using digit
    refine ⟨by omega, Char.toNat_inj.1 ?_⟩
    rw [Nat.toNat_digitChar_of_lt_ten (by omega)]
    omega
  induction cs using reverseRecOn with
  | nil => exact absurd rfl digits.1
  | append_singleton init c ih =>
    obtain ⟨all, last⟩ : init.all Char.isDigit ∧ c.isDigit := by simpa using digits.2
    obtain ⟨small, shown⟩ := digit last
    have value : digitsValue (init ++ [c]) = digitsValue init * 10 + (c.toNat - 48) := by simp [digitsValue]
    rw [value]
    by_cases empty : init = []
    · subst empty
      rw [show digitsValue [] * 10 + (c.toNat - 48) = c.toNat - 48 from Nat.zero_add _, Nat.toDigits_of_lt_base small,
        shown]
      rfl
    · rw [head?_append_of_ne_nil _ empty] at first
      have before := ih ⟨empty, all⟩ first
      have some : digitsValue init ≠ 0 := by
        intro zero
        rw [zero] at before
        exact first (before ▸ rfl)
      rw [Nat.toDigits_of_base_le (by decide) (by omega), show (digitsValue init * 10 + (c.toNat - 48)) / 10 =
        digitsValue init by omega, show (digitsValue init * 10 + (c.toNat - 48)) % 10 = c.toNat - 48 by omega, before,
        shown]

theorem splitOnce?_append (behind : List Char) (absent : mark ∉ cs) :
    splitOnce? mark (cs ++ mark :: behind) = some (cs, behind) := by
  have other : ∀ c ∈ cs, (c != mark) = true := fun c member => bne_iff_ne.2 fun same => absent (same ▸ member)
  rw [splitOnce?, span_eq_takeWhile_dropWhile, takeWhile_append_of_pos other, dropWhile_append_of_pos other]
  simp

theorem splitOnce?_of_not_mem (absent : mark ∉ cs) : splitOnce? mark cs = none := by
  have other : ∀ c ∈ cs, (c != mark) = true := fun c member => bne_iff_ne.2 fun same => absent (same ▸ member)
  have none : (cs ++ []).dropWhile (· != mark) = [] := dropWhile_append_of_pos other
  rw [splitOnce?, span_eq_takeWhile_dropWhile, ← append_nil cs, none]

theorem not_mem_of_digits (other : mark.isDigit = false) (digits : cs.all Char.isDigit) : mark ∉ cs := by
  intro member
  have digit := all_eq_true.1 digits mark member
  rw [other] at digit
  cases digit

/-- The exponent of a printed number, as far as it fits into 32 bits. -/
theorem readInt32?_exponent {sign digits : List Char} (sign' : sign ∈ [[], ['+'], ['-']]) (digits' : Digits digits)
    (low : -2147483648 ≤ exponentValue (mark :: (sign ++ digits)))
    (high : exponentValue (mark :: (sign ++ digits)) ≤ 2147483647) :
    readInt32? (sign ++ digits) = some (.ofInt (exponentValue (mark :: (sign ++ digits)))) := by
  simp only [mem_cons, not_mem_nil, or_false] at sign'
  rcases sign' with rfl | rfl | rfl
  · rw [nil_append, exponentValue_digits mark digits'] at low high ⊢
    obtain ⟨c, rest, rfl⟩ := exists_cons_of_ne_nil digits'.1
    have digit := all_eq_true.1 digits'.2 c (.head _)
    have unsigned : c ≠ '-' ∧ c ≠ '+' := by constructor <;> rintro rfl <;> cases digit
    simp [readInt32?, unsigned, digits'.2, low, high]
  all_goals
    simp only [singleton_append, exponentValue] at low high ⊢
    simp [readInt32?, digits'.1, digits'.2, low, high]

section

variable (body : List Char) (lead zeros : Nat) (digits : whole.all Char.isDigit) (some : body ≠ [])
  (first : body.head? ≠ Option.some '0') (last : body.getLast? ≠ Option.some '0')

include digits some first last

/-- The two marks of a printed number divide it into its parts. Of its digits the zeros at both ends are left out, those
at the end for a larger power of ten. -/
theorem decompose_parts (fraction' : Fraction fraction) (exponent' : Exponent exponent)
    (mark : exponent.head? ≠ Option.some 'E') (low : -2147483648 ≤ exponentValue exponent)
    (high : exponentValue exponent ≤ 2147483647)
    (parts : whole ++ fraction.tail = List.replicate lead '0' ++ (body ++ List.replicate zeros '0')) :
    decompose (whole ++ (fraction ++ exponent)) =
      (body, .ofInt (exponentValue exponent - fraction.tail.length + zeros)) := by
  have noMark : 'e' ∉ whole ++ fraction ∧ '.' ∉ whole := by
    refine ⟨?_, not_mem_of_digits rfl digits⟩
    rw [mem_append, not_or]
    refine ⟨not_mem_of_digits rfl digits, ?_⟩
    rcases fraction' with rfl | ⟨places, rfl, places'⟩
    · exact not_mem_nil
    · simpa using not_mem_of_digits rfl places'.2
  have point : (splitOnce? '.' (whole ++ fraction)).getD (whole ++ fraction, []) = (whole, fraction.tail) := by
    rcases fraction' with rfl | ⟨places, rfl, -⟩
    · simp [splitOnce?_of_not_mem noMark.2]
    · simp [splitOnce?_append _ noMark.2]
  have rest : (whole ++ fraction.tail).dropWhile (· == '0') = body ++ List.replicate zeros '0' := by
    obtain ⟨c, more, rfl⟩ := exists_cons_of_ne_nil some
    rw [parts, dropWhile_append_of_pos (by simp)]
    simp [show c ≠ '0' by simpa using first]
  have trailing : ((body ++ List.replicate zeros '0').reverse.takeWhile (· == '0')).length = zeros := by
    obtain ⟨c, more, shown⟩ := exists_cons_of_ne_nil (reverse_ne_nil_iff.2 some)
    have other : c ≠ '0' := by
      rintro rfl
      exact last (by rw [← head?_reverse, shown]; rfl)
    rw [reverse_append, reverse_replicate, takeWhile_append_of_pos (by simp), shown]
    simp [other]
  rw [← append_assoc]
  rcases exponent' with rfl | ⟨c, sign, places, rfl, known, sign', places'⟩
  · rw [append_nil, decompose, splitOnce?_of_not_mem noMark.1]
    dsimp only
    rw [point]
    dsimp only
    rw [rest, trailing]
    simp [exponentValue, Int32.ofInt_add, Int32.ofInt_eq_ofNat]
  · obtain rfl : c = 'e' := by simpa [show c ≠ 'E' by simpa using mark] using known
    rw [decompose, splitOnce?_append _ noMark.1]
    dsimp only
    rw [point, readInt32?_exponent sign' places' low high]
    dsimp only
    rw [rest, trailing]
    simp [Int32.ofInt_add, Int32.ofInt_sub, Int32.ofInt_eq_ofNat]

theorem decompose_pointed {places : List Char} (places' : Digits places)
    (parts : whole ++ places = List.replicate lead '0' ++ (body ++ List.replicate zeros '0')) :
    decompose (whole ++ '.' :: places) = (body, .ofInt (zeros - places.length)) := by
  have pointed := decompose_parts body lead zeros digits some first last (.inr ⟨places, rfl, places'⟩) (.inl rfl)
    (by simp) (by decide) (by decide) parts
  rw [append_nil] at pointed
  rw [pointed, tail_cons, show exponentValue [] - (places.length : Int) + zeros = zeros - places.length by
    rw [exponentValue]; omega]

end

namespace Decimal

theorem exists_leading_zeros (cs : List Char) :
    ∃ lead rest, cs = List.replicate lead '0' ++ rest ∧ rest.head? ≠ some '0' := by
  induction cs with
  | nil => exact ⟨0, [], rfl, by simp⟩
  | cons c cs ih =>
    by_cases zero : c = '0'
    · obtain ⟨lead, rest, rfl, first⟩ := ih
      exact ⟨lead + 1, rest, by rw [zero]; rfl, first⟩
    · exact ⟨0, c :: cs, rfl, by simpa using zero⟩

/-- A positive number that is printed short of 32 bits is taken apart into a decimal without zeros at its ends, and that
is the same rational. -/
theorem exists_decompose (digits : Digits whole) (fraction' : Fraction fraction) (exponent' : Exponent exponent)
    (mark : exponent.head? ≠ some 'E') (positive : magnitudeOf (whole ++ (fraction ++ exponent)) ≠ 0)
    (short : whole.length + fraction.length + (exponentValue exponent).natAbs < 2147483648) :
    ∃ d : Decimal, d.Proper ∧ d.digits ≠ 0 ∧ (Nat.toDigits 10 d.digits).getLast? ≠ some '0' ∧
      d.value = magnitudeOf (whole ++ (fraction ++ exponent)) ∧
      decompose (whole ++ (fraction ++ exponent)) = (Nat.toDigits 10 d.digits, .ofInt d.exponent) := by
  have value := magnitudeOf_parts digits.2 fraction' exponent'
  obtain ⟨lead, rest, cut, first⟩ := exists_leading_zeros (whole ++ fraction.tail)
  obtain ⟨zeros, body, trimmed, last⟩ := exists_leading_zeros rest.reverse
  obtain ⟨body, rfl⟩ : ∃ back : List Char, body = back.reverse := ⟨_, (reverse_reverse body).symm⟩
  obtain rfl : rest = body ++ List.replicate zeros '0' := by simpa using congrArg reverse trimmed
  rw [head?_reverse] at last
  have digitsValue_eq : digitsValue (whole ++ fraction.tail) = digitsValue body * 10 ^ zeros := by
    rw [cut, digitsValue_zeros_append, digitsValue_append_zeros]
  rw [digitsValue_eq] at value
  have some : digitsValue body ≠ 0 := fun zero => positive (by rw [value, zero]; simp)
  have filled : body ≠ [] := by
    rintro rfl
    exact some rfl
  rw [head?_append_of_ne_nil _ filled] at first
  have all : body.all Char.isDigit := by
    have both : (whole ++ fraction.tail).all Char.isDigit := by
      rcases fraction' with rfl | ⟨places, rfl, places'⟩
      · simpa using digits.2
      · rw [all_append, digits.2, tail_cons, places'.2]
        rfl
    rw [cut, all_append, all_append] at both
    simp only [Bool.and_eq_true] at both
    exact both.2.1
  have shown := toDigits_digitsValue ⟨filled, all⟩ first
  have count := congrArg length cut
  simp only [length_append, length_replicate, length_tail] at count
  refine ⟨{ digits := digitsValue body, exponent := exponentValue exponent - fraction.tail.length + zeros },
    ⟨.inl some, ?_, ?_⟩, some, ?_, ?_, ?_⟩
  · rw [decimalLength, shown]
    omega
  · rw [length_tail]
    dsimp only
    omega
  · rwa [shown]
  · rw [value, Decimal.value, zpow_add₀ (by norm_num), zpow_natCast, Nat.cast_mul, Nat.cast_pow, Nat.cast_ofNat]
    ring
  · rw [shown]
    exact decompose_parts body lead zeros digits.2 filled first last fraction' exponent' mark (by omega) (by omega) cut

/-- The digits and the power of ten are found again in what is printed of them. -/
theorem decompose_printed (trimmed : d.digits % 10 ≠ 0)
    (small : decimalLength d.digits + d.exponent.natAbs < 2147483648) :
    decompose d.printed = (Nat.toDigits 10 d.digits, .ofInt d.exponent) := by
  unfold decimalLength at small
  have digits := all_isDigit_toDigits d.digits
  have first : (Nat.toDigits 10 d.digits).head? ≠ some '0' := head?_toDigits (by omega)
  have last := getLast?_toDigits trimmed
  have some : Nat.toDigits 10 d.digits ≠ [] := Nat.toDigits_ne_nil
  have long := length_pos_iff.2 some
  unfold printed
  generalize Nat.toDigits 10 d.digits = cs at small digits first last some long ⊢
  dsimp only
  have taken (n : Nat) : (cs.take n).all Char.isDigit ∧ (cs.drop n).all Char.isDigit := by
    rw [← Bool.and_eq_true, ← all_append, take_append_drop]
    exact digits
  split
  · rename_i near
    simp only [Bool.and_eq_true, decide_eq_true_eq] at near
    rw [decompose_pointed cs 0 (d.exponent.toNat + 1) (by rw [all_append, digits, all_isDigit_zeros]; rfl) some first
      last ⟨by simp, by decide⟩ (by simp [replicate_succ'])]
    simp [near.1]
  split
  · rename_i far near
    simp only [Bool.and_eq_true, decide_eq_true_eq] at far near
    have shorter : (cs.length + d.exponent).toNat < cs.length := by omega
    rw [decompose_pointed cs 0 0 (taken _).1 some first last ⟨by simpa using shorter, (taken _).2⟩ (by simp)]
    congr 2
    rw [length_drop]
    omega
  split
  · rename_i near
    simp only [Bool.and_eq_true, decide_eq_true_eq] at near
    refine (decompose_pointed cs ((-(cs.length + d.exponent)).toNat + 1) 0 (show ['0'].all Char.isDigit by decide)
      some first last ⟨by simp [some], by rw [all_append, digits, all_isDigit_zeros]; rfl⟩
      (by simp [replicate_succ])).trans ?_
    congr 2
    rw [length_append, length_replicate]
    omega
  · have point : Fraction (if cs.length = 1 then [] else '.' :: cs.drop 1) ∧
        cs.take 1 ++ (if cs.length = 1 then [] else '.' :: cs.drop 1).tail = cs ∧
        ((if cs.length = 1 then [] else '.' :: cs.drop 1).tail.length : Int) = cs.length - 1 := by
      split
      · rename_i single
        exact ⟨.inl rfl, by simp [take_of_length_le (Nat.le_of_eq single)], by simp [single]⟩
      · refine ⟨.inr ⟨_, rfl, ne_nil_of_length_pos ?_, (taken 1).2⟩, take_append_drop 1 cs, ?_⟩
        all_goals
          simp only [tail_cons, length_drop]
          omega
    rw [append_assoc, decompose_parts cs 0 0 (taken 1).1 some first last point.1 (exponent_toString _) (by simp)
      (by rw [exponentValue_toString]; omega) (by rw [exponentValue_toString]; omega)
      (by rw [point.2.1]; exact (append_nil cs).symm), exponentValue_toString, point.2.2]
    congr 2
    simp

end Decimal

theorem Magnitude.ofBits_bounds (bits : UInt64) :
    (ofBits bits).mantissa < 2 * Nat.pow 2 52 ∧ -1074 ≤ (ofBits bits).exponent ∧ (ofBits bits).exponent ≤ 972 := by
  have fraction := Nat.mod_lt bits.toNat (show Nat.pow 2 52 > 0 by decide)
  have biased := Nat.mod_lt (bits.toNat / Nat.pow 2 52) (show 2048 > 0 by decide)
  unfold ofBits
  generalize Nat.pow 2 52 = width at fraction biased ⊢
  dsimp only
  split <;> dsimp only <;> omega

/-- A power of two has at most as many digits as that of ten. -/
theorem decimalLength_scaled {m n p q : Nat} (mantissa : m < 8 * Nat.pow 2 52)
    (bound : n ≤ m * Nat.pow 2 p * Nat.pow 10 q + 1) : decimalLength n ≤ 21 + p + q := by
  have scaled : m * Nat.pow 2 p * Nat.pow 10 q < Nat.pow 10 (20 + p + q) :=
    calc m * Nat.pow 2 p * Nat.pow 10 q
      _ < 10 ^ 20 * 10 ^ p * 10 ^ q := by
        refine Nat.mul_lt_mul_of_pos_right ?_ (Nat.pow_pos (by decide))
        exact Nat.mul_lt_mul_of_lt_of_le (Nat.lt_trans mantissa (by decide)) (Nat.pow_le_pow_left (by decide) p)
          (Nat.pow_pos (by decide))
      _ = Nat.pow 10 (20 + p + q) := by rw [← Nat.pow_add, ← Nat.pow_add]; rfl
  refine Nat.toDigits_length 10 n _ (by omega) (Nat.lt_of_le_of_lt (Nat.le_trans bound scaled) ?_)
  exact Nat.pow_lt_pow_right (by decide) (by omega)

theorem Magnitude.leading_bounds (bits : UInt64) :
    -351 ≤ (ofBits bits).leading ∧ (ofBits bits).leading ≤ 992 := by
  obtain ⟨mantissa, -, high⟩ := ofBits_bounds bits
  have short : decimalLength ((ofBits bits).mantissa * Nat.pow 10 places * Nat.pow 2 (ofBits bits).exponent.toNat /
      Nat.pow 2 (-(ofBits bits).exponent).toNat) ≤ 21 + (ofBits bits).exponent.toNat + places := by
    refine decimalLength_scaled (show (ofBits bits).mantissa < _ by omega) ?_
    rw [Nat.mul_right_comm]
    exact Nat.le_succ_of_le (Nat.div_le_self _ _)
  have shift : places = 350 := rfl
  unfold leading
  dsimp only
  omega

/-- A point of a grid that rounds to a positive magnitude is positive, and at most one above it. -/
theorem Magnitude.onGrid?_bounds {x : Magnitude} {tie : Tie} {e : Int} {digits : Nat} (positive : x.mantissa ≠ 0)
    (found : x.onGrid? tie e = some digits) :
    digits ≠ 0 ∧ digits ≤ 4 * x.mantissa * Nat.pow 2 (x.exponent - 2).toNat * Nat.pow 10 (-e).toNat + 1 := by
  have low (k : Nat) (small : k ≤ 2) :
      0 < (4 * x.mantissa - k) * Nat.pow 2 (x.exponent - 2).toNat * Nat.pow 10 (-e).toNat := by
    have first : 0 < 4 * x.mantissa - k := by omega
    exact Nat.mul_pos (Nat.mul_pos first (Nat.pow_pos (by decide))) (Nat.pow_pos (by decide))
  have bound := low (if x.closeBelow then 1 else 2) (by split <;> decide)
  -- zero is below the interval, whether or not its ends belong to it
  have below {n k scale power low high : Nat} (bound : 0 < low)
      (inside : (if x.mantissa % 2 = 0 then
          decide (low ≤ n / k * scale * power) && decide (n / k * scale * power ≤ high)
        else decide (low < n / k * scale * power) && decide (n / k * scale * power < high)) = true) :
      n / k ≠ 0 ∧ n / k ≤ n + 1 := by
    refine ⟨fun zero => ?_, Nat.le_succ_of_le (Nat.div_le_self n k)⟩
    rw [zero] at inside
    split at inside
    · simp at inside
      omega
    · simp at inside
  have above (n k : Nat) : n / k + 1 ≠ 0 ∧ n / k + 1 ≤ n + 1 :=
    ⟨Nat.succ_ne_zero _, Nat.succ_le_succ (Nat.div_le_self n k)⟩
  unfold Magnitude.onGrid? at found
  dsimp only at found
  split at found
  · cases found
  · rename_i inside _
    exact Option.some.inj found ▸ below bound inside
  · exact Option.some.inj found ▸ above _ _
  · rename_i inside _
    split at found
    · exact Option.some.inj found ▸ below bound inside
    · split at found
      · exact Option.some.inj found ▸ above _ _
      · split at found
        · exact Option.some.inj found ▸ above _ _
        · rw [← Option.some.inj found]
          split
          · exact below bound inside
          · exact above _ _

/-- A double is zero, or its decimal has no zero at the end and is far from the bounds of 32 bits. -/
theorem Decimal.ofFloat_cases (x : Float) (tie : Tie) :
    ofFloat x tie = { digits := 0, exponent := 0 } ∨ (ofFloat x tie).digits % 10 ≠ 0 ∧
      decimalLength (ofFloat x tie).digits + (ofFloat x tie).exponent.natAbs < 2147483648 := by
  unfold ofFloat Magnitude.shortest
  split
  · exact .inl rfl
  · rename_i positive
    dsimp only
    cases found : (List.range 17).findSome? _ with
    | none => exact .inl rfl
    | some d =>
      obtain ⟨n, member, grid⟩ := exists_of_findSome?_eq_some found
      obtain ⟨digits, onGrid, rfl⟩ := Option.map_eq_some_iff.1 grid
      obtain ⟨some, near⟩ := Magnitude.onGrid?_bounds positive onGrid
      have steps := mem_range.1 member
      obtain ⟨mantissa, -, high⟩ := Magnitude.ofBits_bounds x.toBits
      obtain ⟨least, most⟩ := Magnitude.leading_bounds x.toBits
      obtain ⟨trimmed, fewer, lower, upper⟩ :=
        trimZeros_spec { digits, exponent := (Magnitude.ofBits x.toBits).leading - n }
      rw [Option.getD_some]
      refine .inr ⟨trimmed some, ?_⟩
      have long := decimalLength_scaled (show 4 * (Magnitude.ofBits x.toBits).mantissa < _ by omega) near
      have shorter := decimalLength_scaled (show 4 * (Magnitude.ofBits x.toBits).mantissa < _ by omega)
        (Nat.le_trans fewer near)
      dsimp only at lower upper
      generalize trimZeros _ = d at *
      omega

theorem Decimal.proper_ofFloat (x : Float) (tie : Tie) : (ofFloat x tie).Proper := by
  rcases ofFloat_cases x tie with zero | ⟨trimmed, small⟩
  · rw [zero]
    exact ⟨.inr rfl, by decide, by decide⟩
  · exact ⟨.inl fun zero => trimmed (by rw [zero]), by omega, by omega⟩

theorem isFinite_iff : x.isFinite ↔ x.isNaN = false ∧ x.isInf = false := by
  unfold Float.isFinite Float.isNaN Float.isInf Float.Model.isFinite Float.Model.isNaN Float.Model.isInf
  cases x.toModel.unpack with
  | notANumber => exact ⟨Bool.noConfusion, fun both => Bool.noConfusion both.1⟩
  | infinity sign => exact ⟨Bool.noConfusion, fun both => Bool.noConfusion both.2⟩
  | zero sign | finite sign mantissa exponent positive => exact ⟨fun _ => ⟨rfl, rfl⟩, fun _ => rfl⟩

def signOf (x : Float) : List Char :=
  if isNegative x then ['-'] else []

theorem head?_ofFloat (x : Float) (tie : Tie) {mark : Char} (other : mark.isDigit = false ∧ mark ≠ '.') :
    (ofFloat x tie).shortestSpelling.head? ≠ some mark := by
  obtain ⟨c, rest, text, first, -⟩ := (numeral_shortestSpelling (proper_ofFloat x tie)).head?
  rw [text]
  rintro ⟨⟩
  simp [other] at first

section

variable (unmarked : cs.head? ≠ some '-')

include unmarked

/-- The rational that the spelling of a number stands for. -/
theorem decimalValue_signed :
    decimalValue (signOf x ++ cs) = if isNegative x then -magnitudeOf cs else magnitudeOf cs := by
  unfold signOf
  split
  · rfl
  · unfold decimalValue
    split
    · simp_all
    · rfl

theorem head?_withZero : (withZero cs).head? ≠ some '-' := by
  unfold withZero
  split
  · simp
  · exact unmarked

theorem number_negated (number : Number cs) : Number ('-' :: cs) := by
  obtain ⟨sign, whole, fraction, exponent, rfl, sign', parts⟩ := number
  have plain : sign = [] := by
    simp only [mem_cons, not_mem_nil, or_false] at sign'
    rcases sign' with rfl | rfl
    · rfl
    · exact absurd rfl unmarked
  subst plain
  exact ⟨['-'], whole, fraction, exponent, rfl, by simp, parts⟩

theorem number_signed (number : Number cs) : Number (signOf x ++ cs) := by
  unfold signOf
  split
  · exact number_negated unmarked number
  · exact number

end

theorem Unsigned.isNegative (unsigned : Unsigned x) : isNegative x = false := by
  have small : ¬ x.toBits.toNat ≥ Nat.pow 2 63 := Nat.not_le.2 unsigned
  simp only [Condense.isNegative, small, decide_false, Bool.false_and]

variable (finite : x.isFinite = true)

include finite

theorem toList_numberText : (numberText x).toList = signOf x ++ (ofFloat x .even).shortestSpelling := by
  obtain ⟨number, bounded⟩ := isFinite_iff.1 finite
  have spelled : (if (ofFloat x .even).digits = 0 then "0" else
      String.ofList (shortestText (decompose (ofFloat x .even).printed).1 (decompose (ofFloat x .even).printed).2)).toList =
      (ofFloat x .even).shortestSpelling := by
    rcases ofFloat_cases x .even with zero | ⟨trimmed, small⟩
    · rw [zero]
      rfl
    · rw [if_neg (fun zero => trimmed (by rw [zero])), decompose_printed trimmed small, String.toList_ofList]
      rfl
  unfold numberText signOf
  simp only [number, bounded, Bool.false_eq_true, if_false, String.toList_append, spelled]
  cases isNegative x <;> rfl

theorem toList_jsonNumberText :
    (jsonNumberText x).toList = signOf x ++ withZero (ofFloat x .even).shortestSpelling := by
  have spelled := toList_numberText finite
  have unmarked : _ ≠ some '-' := head?_ofFloat x .even (by decide)
  unfold jsonNumberText
  generalize (ofFloat x .even).shortestSpelling = cs at spelled unmarked
  unfold signOf at spelled ⊢
  unfold withZero
  have unpointed (none : ∀ rest, cs ≠ '.' :: rest) : cs.head? ≠ some '.' := by
    intro point
    rw [head?_eq_some_iff] at point
    exact none _ point.choose_spec
  generalize isNegative x = negative at spelled
  cases negative <;> rw [spelled] <;> split <;> simp_all

theorem decimalValue_numberText :
    decimalValue (numberText x).toList =
      if isNegative x then -(ofFloat x .even).value else (ofFloat x .even).value := by
  rw [toList_numberText finite, decimalValue_signed (head?_ofFloat x .even (by decide)),
    magnitudeOf_shortestSpelling (proper_ofFloat x .even)]

theorem decimalValue_jsonNumberText : decimalValue (jsonNumberText x).toList = decimalValue (numberText x).toList := by
  rw [decimalValue_numberText finite, toList_jsonNumberText finite,
    decimalValue_signed (head?_withZero (head?_ofFloat x .even (by decide))), magnitudeOf_withZero,
    magnitudeOf_shortestSpelling (proper_ofFloat x .even)]

theorem number_jsonNumberText : Number (jsonNumberText x).toList := by
  rw [toList_jsonNumberText finite]
  exact number_signed (head?_withZero (head?_ofFloat x .even (by decide)))
    (numeral_shortestSpelling (proper_ofFloat x .even)).number

/-- Where a number has no sign, one may be written before it. -/
theorem number_minus (unsigned : Unsigned x) :
    Number ('-' :: (jsonNumberText x).toList) ∧
      decimalValue ('-' :: (jsonNumberText x).toList) = -decimalValue (numberText x).toList := by
  have unmarked := head?_withZero (head?_ofFloat x .even (by decide))
  rw [decimalValue_numberText finite, toList_jsonNumberText finite, signOf, unsigned.isNegative]
  refine ⟨number_negated unmarked (numeral_shortestSpelling (proper_ofFloat x .even)).number, ?_⟩
  show -magnitudeOf (withZero _) = _
  rw [magnitudeOf_withZero, magnitudeOf_shortestSpelling (proper_ofFloat x .even)]
  rfl

end Condense
