import KifuRatings.Proofs.Decimal.Rounding

/-!
# Results that stay finite

Rounding raises the exponent of a number by at most one place beyond the length of its mantissa. So
a product of doubles that are not too large, and the root of any double, are finite again.
-/

open Float.Model Float.Model.UnpackedFloat

namespace KifuRatings.Decimal

/-- A zero, or a double with at most this exponent. -/
inductive Within (greatest : ℤ) : UnpackedFloat → Prop
  | zero (sign : Sign) : Within greatest (.zero sign)
  | finite {sign : Sign} {mantissa : ℕ} {exponent : ℤ} {positive : 0 < mantissa}
      (short : mantissa < 2 ^ 53) (low : exponent ≤ greatest) :
      Within greatest (.finite sign mantissa exponent positive)

instance (greatest : ℤ) : DecidablePred (Within greatest)
  | .zero sign => .isTrue (.zero sign)
  | .finite _ mantissa exponent _ =>
      if fits : mantissa < 2 ^ 53 ∧ exponent ≤ greatest then .isTrue (.finite fits.1 fits.2)
      else .isFalse fun | .finite short low => fits ⟨short, low⟩
  | .notANumber => .isFalse nofun
  | .infinity _ => .isFalse nofun

theorem within_of_finite {value : Float} (finite : value.isFinite = true) :
    Within 971 value.toModel.unpack := by
  cases shape_of value with
  | special notFinite => rw [finite] at notFinite; cases notFinite
  | zero sign => cases sign <;> exact .zero _
  | finite sign isDouble =>
      rw [unpack_of_parts]
      exact .finite isDouble.short isDouble.greatest

theorem finite_of_within {value : Float} {greatest : ℤ}
    (within : Within greatest value.toModel.unpack) : value.isFinite = true := by
  change value.toModel.unpack.isFinite = true
  cases unpacked : value.toModel.unpack with
  | notANumber | infinity => rw [unpacked] at within; cases within
  | zero | finite => rfl

theorem within_zero {greatest : ℤ} (sign : Sign) :
    Within greatest (Float.Model.pack (.zero sign)).unpack := by
  cases sign <;> exact .zero _

section Fields

variable {greatest : ℤ} (least : -1074 ≤ greatest) (bounded : greatest ≤ 971)

include least bounded

theorem within_of_fields (sign : Sign) (field : BitVec 11) (fraction : BitVec 52)
    (low : (field.toNat : ℤ) ≤ greatest + 1075) :
    Within greatest (UnpackedFloat.unpack Format.binary64
      (packComponents Format.binary64 sign field fraction)) := by
  have short := fraction.isLt
  have notTop : field ≠ -1#11 := by
    intro top
    rw [top] at low
    change (2047 : ℤ) ≤ _ at low
    omega
  by_cases isLeast : field = 0#11
  · subst isLeast
    by_cases zero : fraction = 0#52
    · subst zero
      cases sign <;> exact .zero _
    · rw [unpack_subnormal (Nat.pos_of_ne_zero fun none => zero (BitVec.eq_of_toNat_eq none))]
      exact .finite (by omega) least
  · rw [unpack_normal isLeast notTop]
    exact .finite (by omega) (by omega)

theorem within_of_pack {value : UnpackedFloat} (finite : value.isFinite = true)
    (low : ∀ sign mantissa exponent positive, value = .finite sign mantissa exponent positive →
      exponent ≤ greatest) : Within greatest (Float.Model.pack value).unpack := by
  cases value with
  | notANumber | infinity => cases finite
  | zero sign => exact within_zero sign
  | finite sign mantissa exponent positive =>
      have small : exponent ≤ greatest := low _ _ _ _ rfl
      have field : ((exponent + (Format.exponentBias Format.binary64 : ℕ) +
          (Format.mantissaBitsWithoutImplicit Format.binary64 : ℕ)).toNat : ℤ) ≤
            greatest + 1075 := by
        change ((exponent + 1023 + 52).toNat : ℤ) ≤ _
        omega
      have inRange : ¬ 2 ^ 11 ≤ (exponent + (Format.exponentBias Format.binary64 : ℕ) +
          (Format.mantissaBitsWithoutImplicit Format.binary64 : ℕ)).toNat + 1 := by
        have below := field.trans (Int.add_le_add_right bounded 1075)
        omega
      change Within greatest (UnpackedFloat.unpack Format.binary64 (UnpackedFloat.pack _ _))
      unfold UnpackedFloat.pack
      dsimp only
      rw [if_neg inRange]
      split
      · apply within_of_fields least bounded
        rw [BitVec.toNat_ofNat]
        exact (Int.ofNat_le.mpr (Nat.mod_le _ _)).trans field
      · apply within_of_fields least bounded
        change (0 : ℤ) ≤ _
        omega

end Fields

/-! ## Rounding -/

theorem mantissa_shift (cut : ExtendedMantissa) (places : ℕ) :
    (cut >>> places).mantissa = cut.mantissa / 2 ^ places := by
  change (places.repeat ExtendedMantissa.shiftRightOne cut).mantissa = _
  induction places with
  | zero => exact (Nat.div_one _).symm
  | succ places induction =>
      change (places.repeat ExtendedMantissa.shiftRightOne cut).mantissa / 2 = _
      rw [induction, Nat.div_div_eq_div_mul, pow_succ]

theorem rounded_le (cut : ExtendedMantissa) : cut.roundedMantissa ≤ cut.mantissa + 1 := by
  unfold ExtendedMantissa.roundedMantissa Accuracy.roundToNearestEven
  split <;> omega

theorem mantissa_of_accuracy (mantissa : ℕ) (accuracy : Accuracy) :
    (ExtendedMantissa.ofMantissaAndAccuracy mantissa accuracy).mantissa = mantissa := by
  cases accuracy with
  | exact => rfl
  | inexact side => cases side <;> rfl

theorem shifted_short (mantissa : ℕ) (exponent : ℤ) (accuracy : Accuracy) :
    (shiftToTargetExponent Format.binary64 mantissa exponent accuracy).1.mantissa < 2 ^ 53 := by
  unfold shiftToTargetExponent shiftToExponent
  dsimp only
  rw [mantissa_shift, mantissa_of_accuracy, target_exponent_eq, Nat.div_lt_iff_lt_mul
    (Nat.two_pow_pos _), ← pow_add]
  apply Nat.lt_log2_self.trans_le
  apply Nat.pow_le_pow_right two_pos
  omega

theorem shifted_exponent (mantissa : ℕ) (exponent : ℤ) (accuracy : Accuracy) :
    (shiftToTargetExponent Format.binary64 mantissa exponent accuracy).2 =
      max exponent (max ((mantissa.log2 : ℤ) + exponent - 52) (-1074)) := by
  unfold shiftToTargetExponent shiftToExponent
  dsimp only
  rw [target_exponent_eq]
  omega

theorem rounded_finite (sign : Sign) (mantissa : ℕ) (exponent : ℤ) (accuracy : Accuracy) :
    (roundWithAccuracy Format.binary64 sign mantissa exponent accuracy).isFinite = true := by
  unfold roundWithAccuracy
  dsimp only
  split
  · rfl
  · rfl

theorem rounded_exponent {sign : Sign} {mantissa : ℕ} {exponent : ℤ} {accuracy : Accuracy}
    {greatest : ℤ} (least : -1074 ≤ greatest) (low : exponent ≤ greatest)
    (short : (mantissa.log2 : ℤ) + exponent ≤ greatest + 52) {roundedSign : Sign}
    {rounded : ℕ} {place : ℤ} {positive : 0 < rounded}
    (rounds : roundWithAccuracy Format.binary64 sign mantissa exponent accuracy =
      .finite roundedSign rounded place positive) : place ≤ greatest + 1 := by
  have cutShort := shifted_short mantissa exponent accuracy
  have cutExponent := shifted_exponent mantissa exponent accuracy
  unfold roundWithAccuracy at rounds
  generalize first : shiftToTargetExponent Format.binary64 mantissa exponent accuracy = cut
    at rounds cutShort cutExponent
  have bits : cut.1.roundedMantissa.log2 ≤ 53 := by
    have atMost := rounded_le cut.1
    by_cases zero : cut.1.roundedMantissa = 0
    · simp [zero]
    · exact Nat.le_of_lt_succ ((Nat.log2_lt zero).mpr (by omega))
  have again := shifted_exponent cut.1.roundedMantissa cut.2 .exact
  dsimp only at rounds
  split at rounds
  · cases rounds
  · injection rounds with _ _ samePlace
    rw [← samePlace, again]
    omega

/-- Rounding makes a double with an exponent that is at most one place higher. -/
theorem within_of_rounded {sign : Sign} {mantissa : ℕ} {exponent : ℤ} {accuracy : Accuracy}
    {greatest : ℤ} (least : -1074 ≤ greatest) (bounded : greatest ≤ 970)
    (low : exponent ≤ greatest) (short : (mantissa.log2 : ℤ) + exponent ≤ greatest + 52) :
    Within (greatest + 1) (Float.Model.pack
      (roundWithAccuracy Format.binary64 sign mantissa exponent accuracy)).unpack := by
  apply within_of_pack (by omega) (by omega) (rounded_finite ..)
  intro _ _ _ _ rounds
  exact rounded_exponent least low short rounds

/-! ## Products and roots -/

theorem log2_lt_of_lt {number places : ℕ} (short : number < 2 ^ places) (some : 0 < places) :
    number.log2 < places := by
  by_cases zero : number = 0
  · rwa [zero, Nat.log2_zero]
  · exact (Nat.log2_lt zero).mpr short

theorem within_of_product {left right : Float} {leftGreatest rightGreatest greatest : ℤ}
    (leftWithin : Within leftGreatest left.toModel.unpack)
    (rightWithin : Within rightGreatest right.toModel.unpack)
    (room : leftGreatest + rightGreatest + 53 ≤ greatest) (least : -1074 ≤ greatest)
    (bounded : greatest ≤ 970) : Within (greatest + 1) (left * right).toModel.unpack := by
  change Within (greatest + 1) (Float.Model.pack (UnpackedFloat.mul Format.binary64
    left.toModel.unpack right.toModel.unpack)).unpack
  cases leftKind : left.toModel.unpack with
  | notANumber | infinity => rw [leftKind] at leftWithin; cases leftWithin
  | zero leftSign =>
      cases rightKind : right.toModel.unpack with
      | notANumber | infinity => rw [rightKind] at rightWithin; cases rightWithin
      | zero rightSign => exact within_zero (leftSign * rightSign)
      | finite rightSign => exact within_zero (leftSign * rightSign)
  | finite leftSign leftMantissa leftExponent leftPositive =>
      cases rightKind : right.toModel.unpack with
      | notANumber | infinity => rw [rightKind] at rightWithin; cases rightWithin
      | zero rightSign => exact within_zero (leftSign * rightSign)
      | finite rightSign rightMantissa rightExponent rightPositive =>
          rw [leftKind] at leftWithin
          rw [rightKind] at rightWithin
          obtain _ | ⟨leftShort, leftLow⟩ := leftWithin
          obtain _ | ⟨rightShort, rightLow⟩ := rightWithin
          have bits : (leftMantissa * rightMantissa).log2 < 106 := by
            apply log2_lt_of_lt _ (by norm_num)
            calc
              leftMantissa * rightMantissa < 2 ^ 53 * 2 ^ 53 :=
                Nat.mul_lt_mul_of_lt_of_lt leftShort rightShort
              _ = 2 ^ 106 := by norm_num
          exact within_of_rounded least bounded (by omega) (by omega)

/-- The root of a number with a short mantissa is far from the greatest double. -/
theorem within_of_root {mantissa : ℕ} {exponent : ℤ} (positive : 0 < mantissa)
    (short : mantissa < 2 ^ 53) (low : exponent ≤ 971) :
    Within 487 (Float.Model.pack
      (UnpackedFloat.sqrt Format.binary64 (.finite .positive mantissa exponent positive))).unpack := by
  unfold UnpackedFloat.sqrt sqrtCore
  dsimp only
  generalize isTarget : min (exponent.ediv 2) (Format.binary64.targetExponent
    ((totalExponent mantissa exponent + 1).ediv 2)) = target
  have half : target ≤ exponent / 2 := isTarget.symm.trans_le (min_le_left _ _)
  have twice : 2 * target ≤ exponent := by omega
  generalize isRoot : (mantissa <<< (exponent - 2 * target).toNat).sqrt = root
  have bits : (root.log2 : ℤ) + target ≤ 511 := by
    by_cases zero : root = 0
    · rw [zero, Nat.log2_zero]
      omega
    · have square : 2 ^ (2 * root.log2) < 2 ^ (53 + (exponent - 2 * target).toNat) := by
        calc
          2 ^ (2 * root.log2) = 2 ^ root.log2 * 2 ^ root.log2 := by rw [two_mul, pow_add]
          _ ≤ root * root := Nat.mul_le_mul (Nat.log2_self_le zero) (Nat.log2_self_le zero)
          _ ≤ mantissa <<< (exponent - 2 * target).toNat := isRoot ▸ Nat.sqrt_le _
          _ = mantissa * 2 ^ (exponent - 2 * target).toNat := Nat.shiftLeft_eq ..
          _ < 2 ^ 53 * 2 ^ (exponent - 2 * target).toNat :=
            Nat.mul_lt_mul_of_pos_right short (Nat.two_pow_pos _)
          _ = 2 ^ (53 + (exponent - 2 * target).toNat) := (pow_add ..).symm
      have places := (Nat.pow_lt_pow_iff_right one_lt_two).mp square
      omega
  exact @within_of_rounded .positive root target _ 486 (by norm_num) (by norm_num) (by omega)
    (by omega)

end KifuRatings.Decimal
