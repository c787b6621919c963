import Mathlib.Data.Nat.Digits.Defs
import Condense.Minify.Literals
import Condense.Proofs.Decimal.Numeral
import Condense.Token.Scanner

/-!
The normal spelling of a big integer stands for the same number, has no separators and is no longer.
-/

namespace Condense.Literals

open List

abbrev plain (digits : List Char) : List Char :=
  digits.filter (· != '_')

/-- The number that digits of a base stand for, whatever separators are among them. -/
def digitsIn (radix : Nat) (digits : List Char) : Nat :=
  Nat.ofDigits radix ((plain digits).reverse.map hexDigitValue)

/-- At least one digit of a base, and separators. -/
def Separated (radix : Nat) (digits : List Char) : Prop :=
  (∃ c ∈ digits, c ≠ '_') ∧ ∀ c ∈ digits, c ≠ '_' → isDigitOf radix c = true

/-- The texts of big integers and the numbers they stand for: decimal digits, or a zero, the mark of a base and digits
of that. -/
inductive StandsFor : List Char → Nat → Prop
  | decimal {digits : List Char} : Separated 10 digits → StandsFor digits (digitsIn 10 digits)
  | marked {mark : Char} {radix : Nat} {digits : List Char} : Scanner.radixOf? mark = some radix →
    Separated radix digits → StandsFor ('0' :: mark :: digits) (digitsIn radix digits)

variable {text digits : List Char} {radix value : Nat} {c : Char}

theorem digitsIn_eq (radix : Nat) (digits : List Char) :
    digitsIn radix digits = (plain digits).foldl (fun n c => n * radix + hexDigitValue c) 0 := by
  rw [digitsIn, Nat.ofDigits_eq_foldr, foldr_map, foldr_reverse]
  simp [Nat.mul_comm, Nat.add_comm]

theorem plain_plain (digits : List Char) : plain (plain digits) = plain digits := by
  simp only [filter_filter, Bool.and_self]

theorem digitsIn_plain (radix : Nat) (digits : List Char) :
    digitsIn radix (plain digits) = digitsIn radix digits := by
  rw [digitsIn, plain_plain, digitsIn]

theorem Separated.strip (separated : Separated radix digits) : Separated radix (plain digits) := by
  obtain ⟨⟨c, member, other⟩, each⟩ := separated
  exact ⟨⟨c, mem_filter.2 ⟨member, bne_iff_ne.2 other⟩, other⟩, fun c member => each c (mem_filter.1 member).1⟩

theorem Separated.digit (separated : Separated radix digits) (member : c ∈ plain digits) :
    isDigitOf radix c :=
  separated.2 c (mem_filter.1 member).1 (bne_iff_ne.1 (mem_filter.1 member).2)

/-- A digit is one in lower case too, of the same value. -/
theorem digit_toLower (digit : isDigitOf radix c) :
    isDigitOf radix c.toLower ∧ hexDigitValue c.toLower = hexDigitValue c := by
  have codes : ∀ n ∈ range' 48 10 ++ (range' 65 6 ++ range' 97 6),
      isDigitOf 16 (Char.ofNat n).toLower ∧
        hexDigitValue (Char.ofNat n).toLower = hexDigitValue (Char.ofNat n) := by decide
  simp only [isDigitOf, Bool.and_eq_true] at digit ⊢
  have code : c.toNat ∈ range' 48 10 ++ (range' 65 6 ++ range' 97 6) := by
    have letter := digit.1
    simp [Char.isDigit, Char.le_def, UInt32.le_iff_toNat_le] at letter
    simp only [mem_append, mem_range'_1]
    omega
  obtain ⟨letter, value⟩ := codes c.toNat code
  simp only [Char.ofNat_toNat, isDigitOf, Bool.and_eq_true] at letter value
  exact ⟨⟨letter.1, value ▸ digit.2⟩, value⟩

theorem toDigits_digit (member : c ∈ Nat.toDigits 10 value) :
    c ≠ '_' ∧ isDigitOf 10 c ∧ hexDigitValue c = c.toNat - '0'.toNat := by
  have digit : c.isDigit := Nat.isDigit_of_mem_toDigits (by decide) (by decide) member
  have value : hexDigitValue c = c.toNat - '0'.toNat := if_pos digit
  refine ⟨fun other => by simp [other] at digit, ?_, value⟩
  simp [isDigitOf, digit, value]
  simp [Char.isDigit, UInt32.le_iff_toNat_le] at digit
  omega

theorem plain_toDigits (value : Nat) : plain (Nat.toDigits 10 value) = Nat.toDigits 10 value :=
  filter_eq_self.2 fun _ member => bne_iff_ne.2 (toDigits_digit member).1

theorem separated_toDigits (value : Nat) : Separated 10 (Nat.toDigits 10 value) := by
  obtain ⟨c, member⟩ := exists_mem_of_ne_nil _ (digits_toDigits value).1
  exact ⟨⟨c, member, (toDigits_digit member).1⟩, fun c member _ => (toDigits_digit member).2.1⟩

theorem digitsIn_toDigits (value : Nat) : digitsIn 10 (Nat.toDigits 10 value) = value := by
  rw [digitsIn_eq, plain_toDigits, foldl_ext _ _ _ fun n c member => by rw [(toDigits_digit member).2.2]]
  exact digitsValue_toDigits value

theorem normalBigInt_decimal (separated : Separated 10 text) :
    normalBigInt (String.ofList text) = String.ofList (plain text) := by
  have lower : ∀ c ∈ (plain text).map Char.toLower, isDigitOf 10 c := by
    intro c member
    obtain ⟨d, digit, rfl⟩ := mem_map.1 member
    exact (digit_toLower (separated.digit digit)).1
  have radix : radixOf ((plain text).map Char.toLower) = 10 := by
    generalize (plain text).map Char.toLower = lowered at lower
    unfold radixOf
    split
    · exact absurd (lower 'x' (by simp)) (by decide)
    · exact absurd (lower 'o' (by simp)) (by decide)
    · exact absurd (lower 'b' (by simp)) (by decide)
    · rfl
  simp only [normalBigInt, String.toList_ofList, radix, beq_self_eq_true, if_true]

theorem mark_cases {mark : Char} (known : Scanner.radixOf? mark = some radix) :
    mark ≠ '_' ∧ (∀ rest, radixOf ('0' :: mark.toLower :: rest) = radix) ∧ radix ≠ 10 := by
  unfold Scanner.radixOf? at known
  repeat' split at known
  all_goals cases known
  all_goals
    rename_i either
    simp only [Bool.or_eq_true, decide_eq_true_eq] at either
    rcases either with rfl | rfl <;> exact ⟨by decide, fun _ => rfl, by decide⟩

theorem wholeValue?_lower (separated : Separated radix digits) :
    wholeValue? radix ((plain digits).map Char.toLower) = some (digitsIn radix digits) := by
  obtain ⟨c, member, -⟩ := separated.strip.1
  have some : ((plain digits).map Char.toLower).isEmpty = false :=
    isEmpty_eq_false_iff.2 (ne_nil_of_mem (mem_map_of_mem member))
  have all : ((plain digits).map Char.toLower).all (isDigitOf radix) := by
    rw [all_map, all_eq_true]
    exact fun c member => (digit_toLower (separated.digit member)).1
  rw [wholeValue?, some, all, digitsIn_eq, foldl_map,
    foldl_ext _ _ _ fun n c member => by rw [(digit_toLower (separated.digit member)).2]]
  rfl

/-- What a big integer is written as: its own text without separators, or a shorter decimal number. -/
theorem normalBigInt_standsFor (stands : StandsFor text value) :
    ∃ normal, normalBigInt (String.ofList text) = String.ofList normal ∧ StandsFor normal value ∧ '_' ∉ normal ∧
      normal.length ≤ text.length := by
  have clean (digits : List Char) : '_' ∉ plain digits := by simp
  cases stands with
  | decimal separated =>
    refine ⟨_, normalBigInt_decimal separated, ?_, clean _, length_filter_le _ _⟩
    exact digitsIn_plain 10 text ▸ .decimal separated.strip
  | @marked mark radix digits known separated =>
    obtain ⟨marked, radixes, large⟩ := mark_cases known
    have shorter : (plain digits).length ≤ digits.length := length_filter_le _ _
    have written : normalBigInt (String.ofList ('0' :: mark :: digits)) = String.ofList
        (if (Nat.toDigits 10 (digitsIn radix digits)).length < (plain digits).length + 2 then
          Nat.toDigits 10 (digitsIn radix digits) else '0' :: mark :: plain digits) := by
      have kept : plain ('0' :: mark :: digits) = '0' :: mark :: plain digits := by simp [marked]
      simp only [normalBigInt, String.toList_ofList, kept, map_cons, Char.reduceToLower, radixes, beq_iff_eq, large,
        if_false, drop_succ_cons, drop_zero, wholeValue?_lower separated, length_cons]
    split at written
    · have stands := digitsIn_toDigits _ ▸ StandsFor.decimal (separated_toDigits (digitsIn radix digits))
      exact ⟨_, written, stands, plain_toDigits _ ▸ clean _, by simp only [length_cons]; omega⟩
    · refine ⟨_, written, digitsIn_plain radix digits ▸ .marked known separated.strip, ?_, by simpa using shorter⟩
      simpa using marked.symm

theorem normalBigInt_cases (digits : String) :
    (∃ value, normalBigInt digits = String.ofList (Nat.toDigits 10 value)) ∨
      normalBigInt digits = String.ofList (plain digits.toList) := by
  dsimp only [normalBigInt]
  split
  · exact .inr rfl
  · split
    · rename_i value _
      split
      · exact .inl ⟨value, rfl⟩
      · exact .inr rfl
    · exact .inr rfl

theorem normalBigInt_again (digits : String) : normalBigInt (normalBigInt digits) = normalBigInt digits := by
  rcases normalBigInt_cases digits with ⟨value, decimal⟩ | kept
  · rw [decimal, normalBigInt_decimal (separated_toDigits value), plain_toDigits]
  · have same : normalBigInt (String.ofList (plain digits.toList)) = normalBigInt digits := by
      unfold normalBigInt
      simp only [String.toList_ofList, filter_filter, Bool.and_self]
    rw [kept, same, kept]

theorem normalBigInt_keeps_value (text : String) (value : Nat) (stands : StandsFor text.toList value) :
    StandsFor (normalBigInt text).toList value ∧ '_' ∉ (normalBigInt text).toList ∧
      (normalBigInt text).length ≤ text.length ∧ normalBigInt (normalBigInt text) = normalBigInt text := by
  obtain ⟨normal, written, stands, clean, short⟩ := normalBigInt_standsFor stands
  rw [String.ofList_toList] at written
  refine ⟨?_, ?_, ?_, normalBigInt_again text⟩
  all_goals rw [written]
  all_goals simpa

/-- Of two digits in different cases and a separator three decimal digits are left. -/
theorem normalBigInt_keeps_value_hex :
    StandsFor "0XF_f".toList 255 ∧ normalBigInt "0XF_f" = "255" ∧ StandsFor "255".toList 255 := by
  have digits : Separated 16 ['F', '_', 'f'] := by
    refine ⟨⟨'F', .head _, by decide⟩, ?_⟩
    simp only [forall_mem_cons, not_mem_nil, false_imp_iff, implies_true]
    decide
  have stands : StandsFor "0XF_f".toList 255 := (StandsFor.marked rfl digits : StandsFor ('0' :: 'X' :: _) _)
  have normal : normalBigInt "0XF_f" = "255" := by decide
  exact ⟨stands, normal, normal ▸ (normalBigInt_keeps_value "0XF_f" 255 stands).1⟩

end Condense.Literals
