import Condense.Proofs.Decimal.Printed
import Condense.Output.Emission

/-!
Numbers as keys of JSON objects.
-/

namespace Condense

variable {d : Decimal} {x : Float}

theorem toList_zeros (count : Nat) : ("".pushn '0' count).toList = List.replicate count '0' := by
  unfold String.pushn
  induction count with
  | zero => rfl
  | succ count ih => simp [Nat.repeat, ih, List.replicate_succ']

/-- From the third zero on, an exponent is shorter than zeros. -/
theorem exponent_shorter (zeros : Nat) : (Nat.toDigits 10 zeros).length + 1 < zeros ↔ 2 < zeros := by
  constructor
  · intro shorter
    have some : 0 < (Nat.toDigits 10 zeros).length := Nat.length_toDigits_pos
    omega
  · intro many
    obtain ⟨more, rfl⟩ : ∃ more, zeros = more + 3 := ⟨zeros - 3, by omega⟩
    have small : more + 3 < 10 ^ (more + 1) := by
      induction more with
      | zero => decide
      | succ more ih =>
        rw [Nat.pow_succ]
        omega
    have := (Nat.length_toDigits_le_iff (by decide) (Nat.succ_pos more)).2 small
    omega

/-- A whole number is spelled with an exponent exactly if it ends in three zeros or more. -/
theorem Decimal.shortestSpelling_whole (proper : d.Proper) (whole : 0 ≤ d.exponent) :
    d.shortestSpelling = d.positional.toList ↔ d.exponent ≤ 2 := by
  obtain ⟨zeros, exponent⟩ := Int.eq_ofNat_of_zero_le whole
  have plain : d.plain = Nat.toDigits 10 d.digits ++ List.replicate zeros '0' := by
    rcases plain_cases proper with ⟨-, text⟩ | ⟨_, fraction, -, negative, -, behind, -⟩
    · simpa [exponent] using text
    · have := List.length_pos_iff.2 behind.1
      omega
  have written : d.positional.toList = d.plain := by
    rw [plain, positional, if_pos whole, exponent]
    rcases proper.zero with some | none
    · simp [some, toList_zeros]
    · obtain rfl : zeros = 0 := by omega
      simp [String.pushn, Nat.repeat]
  have shown : (toString d.exponent).toList = Nat.toDigits 10 zeros := by
    rcases toString_int d.exponent with ⟨-, text⟩ | ⟨negative, -⟩
    · simpa [exponent] using text
    · omega
  have choice : d.scientific.length < d.plain.length ↔ 2 < zeros := by
    rw [← exponent_shorter, scientific_eq proper, plain, shown]
    simp
  rw [written, shortestSpelling_eq]
  split
  · rename_i short
    refine ⟨fun same => ?_, by have := choice.1 short; omega⟩
    have mark : 'e' ∈ d.plain := by simp [← same, scientific_eq proper]
    rw [plain] at mark
    have digits : (Nat.toDigits 10 d.digits ++ List.replicate zeros '0').all Char.isDigit := by
      rw [List.all_append, all_isDigit_toDigits, all_isDigit_zeros]
      rfl
    exact absurd (List.all_eq_true.1 digits 'e' mark) (by decide)
  · rename_i long
    rw [choice] at long
    exact ⟨fun _ => by omega, fun _ => rfl⟩

/-- A whole number as a key is written out unless it ends in three zeros or more. -/
theorem Tree.jsonKey?_whole {t : Tree} {key : NodeId} (form : t.form key = .constant (.number x))
    (finite : x.isFinite = true) (unsigned : Condense.Unsigned x) (whole : 0 ≤ (Decimal.ofFloat x .even).exponent) :
    t.jsonKey? key = some (Decimal.ofFloat x .even).positional ↔ (Decimal.ofFloat x .even).exponent ≤ 2 := by
  rw [← Decimal.shortestSpelling_whole (Decimal.proper_ofFloat x .even) whole]
  simp only [jsonKey?, form, finite, if_true, Option.some.injEq]
  rw [← String.toList_inj, toList_numberText finite, signOf, unsigned.isNegative]
  simp

/-- A year ends in few zeros, so it is written out. -/
theorem Tree.jsonKey?_whole_year :
    let x : Float := 1900
    let t := (Tree.alloc {} (.constant (.number x)) {}).2
    Decimal.ofFloat x .even = ⟨19, 2⟩ ∧
      (t.jsonKey? ⟨0⟩ = some (Decimal.ofFloat x .even).positional ↔ (Decimal.ofFloat x .even).exponent ≤ 2) := by
  intro x t
  have facts : Decimal.ofFloat x .even = ⟨19, 2⟩ ∧ x.isFinite = true ∧ x.toBits.toNat < 2 ^ 63 := by decide +kernel
  exact ⟨facts.1, jsonKey?_whole rfl facts.2.1 facts.2.2 (by rw [facts.1]; decide)⟩

end Condense
