import KifuRatings.Proofs.Decimal.Double

/-!
# Rounding to a double

An operation hands over a mantissa and how it relates to the exact number. Every shift keeps
that relation, so the number between the midpoints around a double is rounded to it: at its own
exponent, or one below where rounding carries into a power of two.
-/

open Float.Model Float.Model.UnpackedFloat

namespace KifuRatings.Decimal

/-- What a cut mantissa still knows about the exact number. -/
def Represents (cut : ExtendedMantissa) (number : ℚ) : Prop :=
  match cut.accuracy with
  | .exact => number = cut.mantissa
  | .inexact .lt => cut.mantissa < number ∧ number < cut.mantissa + 1 / 2
  | .inexact .eq => number = cut.mantissa + 1 / 2
  | .inexact .gt => cut.mantissa + 1 / 2 < number ∧ number < cut.mantissa + 1

/-- The numbers that are rounded to an integer. Both ends go to an even one. -/
structure Nearest (number : ℚ) (integer : ℕ) : Prop where
  low : integer - 1 / 2 ≤ number
  high : number ≤ integer + 1 / 2
  odd : integer % 2 = 1 → integer - 1 / 2 < number ∧ number < integer + 1 / 2

theorem represents_floor {cut : ExtendedMantissa} {number : ℚ} (known : Represents cut number) :
    cut.mantissa ≤ number ∧ number < cut.mantissa + 1 := by
  unfold Represents at known
  split at known <;> constructor <;> linarith

theorem rounded_eq_of_nearest {cut : ExtendedMantissa} {number : ℚ} {integer : ℕ}
    (known : Represents cut number) (near : Nearest number integer) :
    cut.roundedMantissa = integer := by
  obtain ⟨low, high, odd⟩ := near
  obtain ⟨floor, ceiling⟩ := represents_floor known
  have either : integer = cut.mantissa ∨ integer = cut.mantissa + 1 := by
    have below : (cut.mantissa : ℚ) < integer + 1 := by linarith
    have above : (integer : ℚ) < cut.mantissa + 2 := by linarith
    have belowNat : cut.mantissa < integer + 1 := by exact_mod_cast below
    have aboveNat : integer < cut.mantissa + 2 := by exact_mod_cast above
    omega
  unfold Represents at known
  unfold ExtendedMantissa.roundedMantissa
  cases accuracy : cut.accuracy with
  | exact =>
      rw [accuracy] at known
      rcases either with same | same <;> subst same
      · rfl
      · push_cast at low
        linarith
  | inexact side =>
      rw [accuracy] at known
      cases side with
      | lt =>
          have half : number < cut.mantissa + 1 / 2 := known.2
          rcases either with same | same <;> subst same
          · rfl
          · push_cast at low
            linarith
      | eq =>
          have half : number = cut.mantissa + 1 / 2 := known
          rcases either with same | same <;> subst same
          · have even : cut.mantissa % 2 = 0 := by
              by_contra notEven
              have strict := (odd (by omega)).2
              linarith
            simp [Accuracy.roundToNearestEven, even]
          · have notEven : cut.mantissa % 2 = 1 := by
              by_contra even
              have strict := (odd (by omega)).1
              push_cast at strict
              linarith
            simp [Accuracy.roundToNearestEven, notEven]
      | gt =>
          have half : (cut.mantissa : ℚ) + 1 / 2 < number := known.1
          rcases either with same | same <;> subst same
          · linarith
          · rfl

theorem represents_shift_one {cut : ExtendedMantissa} {number : ℚ}
    (known : Represents cut number) : Represents cut.shiftRightOne (number / 2) := by
  obtain ⟨mantissa, roundBit, stickyBit⟩ := cut
  have halves : (2 : ℚ) * (mantissa / 2 : ℕ) + (mantissa % 2 : ℕ) = mantissa := by
    exact_mod_cast Nat.div_add_mod mantissa 2
  have parity : mantissa % 2 = 0 ∨ mantissa % 2 = 1 := by omega
  unfold ExtendedMantissa.shiftRightOne
  rcases parity with bit | bit <;> rw [bit] at halves <;>
    cases roundBit <;> cases stickyBit <;>
    simp [Represents, ExtendedMantissa.accuracy, bit] at known halves ⊢ <;>
    (try constructor) <;> linarith

theorem represents_shift {cut : ExtendedMantissa} {number : ℚ} (known : Represents cut number)
    (places : ℕ) : Represents (cut >>> places) (number / 2 ^ places) := by
  change Represents (places.repeat ExtendedMantissa.shiftRightOne cut) _
  induction places with
  | zero =>
      rw [pow_zero, div_one]
      exact known
  | succ places induction =>
      rw [pow_succ, ← div_div]
      exact represents_shift_one induction

/-- The numbers that are rounded to a double. Below a power of two doubles are twice as dense. -/
structure Around (number : ℚ) (mantissa : ℕ) (exponent : ℤ) : Prop where
  nearest : Nearest (number / 2 ^ exponent) mantissa
  dense : mantissa = 2 ^ 52 → exponent ≠ -1074 → (mantissa : ℚ) - 1 / 4 ≤ number / 2 ^ exponent

theorem target_exponent_eq (mantissa : ℕ) (exponent : ℤ) :
    Format.binary64.targetExponent (totalExponent mantissa exponent) =
      max ((mantissa.log2 : ℤ) + exponent - 52) (-1074) := by
  simp only [Format.targetExponent, totalExponent, Format.mantissaBits, Format.minExponent]
  norm_num
  omega

theorem exponent_lt {left right : ℤ} {number : ℚ} (low : (2 : ℚ) ^ left ≤ number)
    (high : number < 2 ^ right) : left < right :=
  (zpow_lt_zpow_iff_right₀ one_lt_two).mp (low.trans_lt high)

/-- A number with its mantissa cut at a bit of this exponent. -/
structure Cut (number : ℚ) (mantissa : ℕ) (exponent : ℤ) : Prop where
  floor : mantissa ≤ number / 2 ^ exponent
  ceiling : number / 2 ^ exponent < mantissa + 1

section Target

variable {number : ℚ} {mantissa : ℕ} {exponent : ℤ}

theorem leading_bit (cut : Cut number mantissa exponent) (positive : mantissa ≠ 0) :
    (2 : ℚ) ^ ((mantissa.log2 : ℤ) + exponent) ≤ number ∧
      number < (2 : ℚ) ^ ((mantissa.log2 : ℤ) + exponent + 1) := by
  obtain ⟨floor, ceiling⟩ := cut
  have unit : (0 : ℚ) < 2 ^ exponent := by positivity
  rw [le_div_iff₀ unit] at floor
  rw [div_lt_iff₀ unit] at ceiling
  have two : (2 : ℚ) ≠ 0 := by norm_num
  have low : (2 : ℚ) ^ mantissa.log2 ≤ mantissa := by
    exact_mod_cast Nat.log2_self_le positive
  have high : (mantissa : ℚ) + 1 ≤ 2 ^ (mantissa.log2 + 1) := by
    exact_mod_cast Nat.lt_log2_self
  constructor
  · rw [zpow_add₀ two, zpow_natCast]
    exact (mul_le_mul_of_nonneg_right low unit.le).trans floor
  · rw [add_right_comm, zpow_add₀ two, ← Nat.cast_succ, zpow_natCast]
    exact ceiling.trans_le (mul_le_mul_of_nonneg_right high unit.le)

/-- The exponent to which a number is rounded. -/
theorem target_of_normal (cut : Cut number mantissa exponent) {target : ℤ}
    (room : exponent ≤ Format.binary64.targetExponent (totalExponent mantissa exponent))
    (least : -1074 ≤ target) (low : (2 : ℚ) ^ (target + 52) ≤ number)
    (high : number < 2 ^ (target + 53)) :
    Format.binary64.targetExponent (totalExponent mantissa exponent) = target := by
  rw [target_exponent_eq] at room ⊢
  by_cases positive : mantissa = 0
  · subst positive
    have small : number < 2 ^ exponent := by
      have ceiling := cut.ceiling
      rwa [Nat.cast_zero, zero_add, div_lt_one₀ (by positivity)] at ceiling
    have bound := exponent_lt low small
    simp only [Nat.log2_zero] at room ⊢
    omega
  · obtain ⟨leading, above⟩ := leading_bit cut positive
    have notAbove := exponent_lt leading high
    have notBelow := exponent_lt low above
    omega

theorem target_of_small (cut : Cut number mantissa exponent)
    (room : exponent ≤ Format.binary64.targetExponent (totalExponent mantissa exponent))
    (high : number < 2 ^ (-1021 : ℤ)) :
    Format.binary64.targetExponent (totalExponent mantissa exponent) = -1074 := by
  rw [target_exponent_eq] at room ⊢
  by_cases positive : mantissa = 0
  · subst positive
    simp only [Nat.log2_zero] at room ⊢
    omega
  · have notAbove := exponent_lt (leading_bit cut positive).1 high
    omega

end Target

/-! ## Rounding -/

theorem shift_exact_short {mantissa : ℕ} {exponent : ℤ} (short : mantissa < 2 ^ 53)
    (least : -1074 ≤ exponent) :
    shiftToTargetExponent Format.binary64 mantissa exponent .exact =
      (⟨mantissa, false, false⟩, exponent) := by
  have bits : mantissa.log2 ≤ 52 := by
    by_cases positive : mantissa = 0
    · simp [positive]
    · have := (Nat.log2_lt positive).mpr short
      omega
  have stays : (Format.binary64.targetExponent (totalExponent mantissa exponent) -
      exponent).toNat = 0 := by
    rw [target_exponent_eq]
    omega
  rw [shiftToTargetExponent, shiftToExponent, stays]
  exact Prod.ext rfl (add_zero exponent)

theorem shift_exact_carry {exponent : ℤ} (least : -1074 ≤ exponent) :
    shiftToTargetExponent Format.binary64 (2 ^ 53) exponent .exact =
      (⟨2 ^ 52, false, false⟩, exponent + 1) := by
  have once : (Format.binary64.targetExponent (totalExponent (2 ^ 53) exponent) -
      exponent).toNat = 1 := by
    rw [target_exponent_eq, Nat.log2_two_pow]
    omega
  rw [shiftToTargetExponent, shiftToExponent, once]
  rfl

section Round

variable {number : ℚ} {mantissa rounded : ℕ} {exponent target : ℤ} {accuracy : Accuracy}
  {cut : ExtendedMantissa} {sign : Sign}

theorem cut_of_represents (known : Represents
      (ExtendedMantissa.ofMantissaAndAccuracy mantissa accuracy) (number / 2 ^ exponent)) :
    Cut number mantissa exponent := by
  have floors := represents_floor known
  cases accuracy with
  | exact => exact ⟨floors.1, floors.2⟩
  | inexact side => cases side <;> exact ⟨floors.1, floors.2⟩

theorem first_shift (known : Represents (ExtendedMantissa.ofMantissaAndAccuracy mantissa accuracy)
      (number / 2 ^ exponent))
    (room : exponent ≤ Format.binary64.targetExponent (totalExponent mantissa exponent))
    (reaches : Format.binary64.targetExponent (totalExponent mantissa exponent) = target) :
    ∃ cut, shiftToTargetExponent Format.binary64 mantissa exponent accuracy = (cut, target) ∧
      Represents cut (number / 2 ^ target) := by
  obtain ⟨places, split⟩ := Int.le.dest room
  rw [reaches] at split
  have shift : (target - exponent).toNat = places := by omega
  refine ⟨ExtendedMantissa.ofMantissaAndAccuracy mantissa accuracy >>> places, ?_, ?_⟩
  · rw [shiftToTargetExponent, shiftToExponent, reaches, shift]
    exact Prod.ext rfl split
  · have scaled : number / 2 ^ target = number / 2 ^ exponent / 2 ^ places := by
      rw [← split, zpow_add₀ two_ne_zero, zpow_natCast, div_div]
    rw [scaled]
    exact represents_shift known places

theorem round_short (first : shiftToTargetExponent Format.binary64 mantissa exponent accuracy =
      (cut, target)) (rounds : cut.roundedMantissa = rounded) (short : rounded < 2 ^ 53)
    (positive : 0 < rounded) (least : -1074 ≤ target) :
    roundWithAccuracy Format.binary64 sign mantissa exponent accuracy =
      .finite sign rounded target positive := by
  unfold roundWithAccuracy
  simp only [first, rounds, shift_exact_short short least, positive.ne', dite_false]

theorem round_carry (first : shiftToTargetExponent Format.binary64 mantissa exponent accuracy =
      (cut, target)) (rounds : cut.roundedMantissa = 2 ^ 53) (least : -1074 ≤ target) :
    roundWithAccuracy Format.binary64 sign mantissa exponent accuracy =
      .finite sign (2 ^ 52) (target + 1) (by decide) := by
  unfold roundWithAccuracy
  simp only [first, rounds, shift_exact_carry least]
  rfl

theorem power_of_below {double : ℕ} {place : ℤ} (isDouble : IsDouble double place)
    (least : place ≠ -1074) (around : Around number double place)
    (below : number < 2 ^ (place + 52)) : double = 2 ^ 52 := by
  have small : number / 2 ^ place < 2 ^ 52 := by
    rw [div_lt_iff₀ (by positivity), ← zpow_natCast, ← zpow_add₀ two_ne_zero, add_comm]
    exact below
  have low := around.nearest.low
  have upper : (double : ℚ) < 2 ^ 52 + 1 := by linarith
  have upperNat : double < 2 ^ 52 + 1 := by exact_mod_cast upper
  have long := isDouble.long.resolve_right least
  omega

/-- Below a power of two the mantissa has one bit more, until rounding carries. -/
theorem nearest_below_power {place : ℤ} (least : place ≠ -1074)
    (around : Around number (2 ^ 52) place) (below : number < 2 ^ (place + 52)) :
    2 ^ (place - 1 + 52) ≤ number ∧ Nearest (number / 2 ^ (place - 1)) (2 ^ 53) := by
  have unit : (0 : ℚ) < 2 ^ place := by positivity
  have dense := around.dense rfl least
  have twice : number / 2 ^ (place - 1) = 2 * (number / 2 ^ place) := by
    rw [zpow_sub_one₀ two_ne_zero, div_mul_eq_div_div, div_inv_eq_mul, mul_comm]
  have high : number / 2 ^ place < 2 ^ 52 := by
    rw [div_lt_iff₀ unit, ← zpow_natCast, ← zpow_add₀ two_ne_zero, add_comm]
    exact below
  push_cast at dense
  refine ⟨?_, ?_, ?_, ?_⟩
  · have low : 2 ^ 51 * 2 ^ place ≤ number := by
      rw [← le_div_iff₀ unit]
      linarith
    rw [show place - 1 + 52 = (51 : ℕ) + place by push_cast; ring, zpow_add₀ two_ne_zero,
      zpow_natCast]
    exact low
  · rw [twice]
    push_cast
    linarith
  · rw [twice]
    push_cast
    linarith
  · intro odd
    norm_num at odd

/-- A number between the midpoints around a double is rounded to it. -/
theorem round_around {double : ℕ} {place : ℤ} (isDouble : IsDouble double place)
    (around : Around number double place)
    (known : Represents (ExtendedMantissa.ofMantissaAndAccuracy mantissa accuracy)
      (number / 2 ^ exponent))
    (room : exponent ≤ Format.binary64.targetExponent (totalExponent mantissa exponent)) :
    roundWithAccuracy Format.binary64 sign mantissa exponent accuracy =
      .finite sign double place isDouble.positive := by
  have isCut := cut_of_represents known
  have below : number < 2 ^ (place + 53) := by
    have short : (double : ℚ) + 1 ≤ 2 ^ 53 := by exact_mod_cast isDouble.short
    have scaled : number / 2 ^ place < 2 ^ 53 := by linarith [around.nearest.high]
    rw [div_lt_iff₀ (by positivity), ← zpow_natCast, ← zpow_add₀ two_ne_zero] at scaled
    rwa [add_comm]
  by_cases least : place = -1074
  · subst least
    obtain ⟨cut, first, cutKnown⟩ := first_shift known room (target_of_small isCut room below)
    exact round_short first (rounded_eq_of_nearest cutKnown around.nearest) isDouble.short
      isDouble.positive le_rfl
  by_cases normal : (2 : ℚ) ^ (place + 52) ≤ number
  · obtain ⟨cut, first, cutKnown⟩ := first_shift known room
      (target_of_normal isCut room isDouble.least normal below)
    exact round_short first (rounded_eq_of_nearest cutKnown around.nearest) isDouble.short
      isDouble.positive isDouble.least
  · have belowPower := lt_of_not_ge normal
    obtain rfl := power_of_below isDouble least around belowPower
    obtain ⟨low, nearest⟩ := nearest_below_power least around belowPower
    have room' : -1074 ≤ place - 1 := by have := isDouble.least; omega
    have high : number < 2 ^ (place - 1 + 53) := by
      rwa [show place - 1 + 53 = place + 52 by ring]
    obtain ⟨cut, first, cutKnown⟩ := first_shift known room
      (target_of_normal isCut room room' low high)
    rw [round_carry first (rounded_eq_of_nearest cutKnown nearest) room']
    congr 1
    ring

end Round

end KifuRatings.Decimal
