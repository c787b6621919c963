import Mathlib.Algebra.Ring.Nat
import Condense.Decimal.Reader

/-!
Numbers that are read from digits have no sign.
-/

namespace Condense

open Float.Model (UnpackedFloat Format)

/-- Whether the sign bit of a number is not set. -/
def Unsigned (x : Float) : Prop :=
  x.toBits.toNat < 2 ^ 63

namespace Unsigned

/-- The same for a number that is taken apart. -/
def Parts : UnpackedFloat → Prop
  | .notANumber => True
  | .infinity sign | .zero sign | .finite sign _ _ _ => sign = .positive

/-- A sign bit that is not set leaves less than half of the range. -/
theorem append_lt {v w : Nat} (exponent : BitVec v) (mantissa : BitVec w) :
    (0#1 ++ exponent ++ mantissa).toNat < 2 ^ (v + w) := by
  have clear : (0#1 ++ exponent ++ mantissa).msb = false := by
    rw [BitVec.msb_append, BitVec.msb_append]
    simp
  rw [BitVec.msb_eq_decide, decide_eq_false_iff_not, Nat.not_le] at clear
  rwa [show 1 + v + w - 1 = v + w by omega] at clear

theorem packComponents_lt (exponent : BitVec 11) (mantissa : BitVec 52) :
    (UnpackedFloat.packComponents Format.binary64 .positive exponent mantissa).toNat < 2 ^ 63 :=
  append_lt exponent mantissa

theorem pack_lt {u : UnpackedFloat} (parts : Parts u) : (UnpackedFloat.pack Format.binary64 u).toNat < 2 ^ 63 := by
  cases u with
  | notANumber => exact packComponents_lt _ _
  | infinity sign | zero sign =>
    cases parts
    exact packComponents_lt _ _
  | finite sign mantissa exponent positive =>
    cases parts
    dsimp only [UnpackedFloat.pack]
    split
    · exact packComponents_lt _ _
    · split <;> exact packComponents_lt _ _

theorem of_parts {u : UnpackedFloat} (parts : Parts u) : Unsigned (.ofModel (.pack u)) :=
  pack_lt parts

theorem parts_dite {c : Prop} [Decidable c] {u : c → UnpackedFloat} {v : ¬c → UnpackedFloat}
    (yes : ∀ h, Parts (u h)) (no : ∀ h, Parts (v h)) : Parts (dite c u v) := by
  by_cases h : c
  · rw [dif_pos h]
    exact yes h
  · rw [dif_neg h]
    exact no h

theorem parts {x : Float} (unsigned : Unsigned x) : Parts x.toModel.unpack := by
  have positive : UnpackedFloat.Sign.ofBitVec (@UnpackedFloat.unpackSign Format.binary64 x.toModel.toBits.toBitVec) =
      .positive := by
    have clear : @UnpackedFloat.unpackSign Format.binary64 x.toModel.toBits.toBitVec = 0#1 := by
      apply BitVec.eq_of_toNat_eq
      have small : x.toModel.toBits.toNat < 2 ^ 63 := unsigned
      show (BitVec.extractLsb 63 63 x.toModel.toBits.toBitVec).toNat = 0
      simp [Nat.shiftRight_eq_div_pow]
      omega
    rw [clear]
    rfl
  unfold Float.Model.unpack UnpackedFloat.unpack
  refine iteInduction (fun _ => ?special) fun _ => iteInduction (fun _ => ?subnormal) fun _ => positive
  case special => exact iteInduction (fun _ => positive) fun _ => trivial
  case subnormal => exact parts_dite (fun _ => positive) fun _ => positive

theorem roundWithAccuracy (mantissa : Nat) (exponent : Int) (accuracy : UnpackedFloat.Accuracy) :
    Parts (UnpackedFloat.roundWithAccuracy Format.binary64 .positive mantissa exponent accuracy) := by
  unfold UnpackedFloat.roundWithAccuracy
  exact parts_dite (fun _ => rfl) fun _ => rfl

theorem normalize {mantissa : Int} (exponent : Int) (large : 0 ≤ mantissa) :
    Parts (UnpackedFloat.normalize Format.binary64 mantissa exponent .positive) := by
  unfold UnpackedFloat.normalize
  split
  · rename_i less
    rw [Int.compare_eq_lt] at less
    omega
  · rfl
  · exact roundWithAccuracy _ _ _

theorem arithmetic {x y : Float} (first : Unsigned x) (second : Unsigned y) :
    Unsigned (x + y) ∧ Unsigned (x * y) ∧ Unsigned (x / y) := by
  refine ⟨of_parts ?sum, of_parts ?product, of_parts ?quotient⟩
  all_goals
    have first := first.parts
    have second := second.parts
    generalize x.toModel.unpack = u at first
    generalize y.toModel.unpack = v at second
    cases u <;> cases v <;> cases first <;> cases second
  case sum.finite.finite.refl.refl =>
    exact normalize _ (Int.add_nonneg (Int.natCast_nonneg _) (Int.natCast_nonneg _))
  case product.finite.finite.refl.refl | quotient.finite.finite.refl.refl => exact roundWithAccuracy _ _ _
  all_goals first | exact rfl | trivial

theorem ofNatParts (n : Nat) : Parts (UnpackedFloat.ofNat Format.binary64 n) :=
  normalize _ (Int.natCast_nonneg _)

theorem scientificParts (digits : Nat) (exponent : Int) :
    Parts (UnpackedFloat.ofScientific Format.binary64 digits exponent) := by
  unfold UnpackedFloat.ofScientific
  refine parts_dite (fun _ => rfl) fun _ => iteInduction (fun _ => rfl) fun _ => iteInduction (fun _ => rfl) fun _ => ?_
  exact iteInduction (fun _ => roundWithAccuracy _ _ _) fun _ => roundWithAccuracy _ _ _

theorem powerOfTen : ∀ x ∈ Float.exactlyRepresentablePowersOfTen.toList, Unsigned x := by
  unfold Unsigned
  decide

theorem ofScientific (digits : Nat) (negative : Bool) (exponent : Nat) :
    Unsigned (Float.ofScientific digits negative exponent) := by
  unfold Float.ofScientific
  split
  · have whole : Unsigned digits.toUInt64.toFloat := of_parts (ofNatParts _)
    have power := powerOfTen _ (Array.getElem_mem_toList
      (show exponent < Float.exactlyRepresentablePowersOfTen.size from Nat.lt_succ_of_le ‹_ ∧ _›.2))
    dsimp only
    split
    · exact (whole.arithmetic power).2.2
    · exact (whole.arithmetic power).2.1
  · exact of_parts (scientificParts _ _)

end Unsigned

theorem unsigned_ofNat (n : Nat) : Unsigned n.toFloat :=
  .ofScientific _ _ _

theorem unsigned_floatOfDecimal (digits : Nat) (exponent : Int) : Unsigned (floatOfDecimal digits exponent) := by
  dsimp only [floatOfDecimal]
  split
  · exact .ofScientific _ _ _
  · split
    · exact (Unsigned.arithmetic (.ofScientific _ _ _) (.ofScientific _ _ _)).2.2
    · split
      · exact .ofScientific _ _ _
      · split <;> exact .ofScientific _ _ _

theorem unsigned_readDecimal (s : List Char) : Unsigned (readDecimal s) :=
  unsigned_floatOfDecimal _ _

theorem unsigned_readRadix (radix : Nat) (digits : List Char) : Unsigned (readRadix radix digits) := by
  have go (value : Float) (unsigned : Unsigned value) : Unsigned (digits.foldl
      (fun value c => value * radix.toFloat + (hexDigitValue c).toFloat) value) := by
    induction digits generalizing value with
    | nil => exact unsigned
    | cons c digits ih => exact ih _ ((unsigned.arithmetic (unsigned_ofNat _)).2.1.arithmetic (unsigned_ofNat _)).1
  exact go _ (.ofScientific _ _ _)

end Condense
