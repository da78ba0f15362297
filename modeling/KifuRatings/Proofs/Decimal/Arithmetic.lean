import KifuRatings.Proofs.Decimal.Rounding

/-!
# Quotients and products of doubles

Division and multiplication keep the leading digits of the exact result with a mark for what lies
below them, so both end in the double around that result.
-/

open Float.Model Float.Model.UnpackedFloat

namespace KifuRatings.Decimal

theorem log2_le_log2_div {dividend divisor : ℕ} (positive : 0 < dividend) (nonzero : 0 < divisor)
    {bits : ℕ} (room : bits + divisor.log2 + 1 ≤ dividend.log2) :
    bits ≤ (dividend / divisor).log2 := by
  have above : divisor < 2 ^ (divisor.log2 + 1) := Nat.lt_log2_self
  have below : 2 ^ dividend.log2 ≤ dividend := Nat.log2_self_le positive.ne'
  have reached : 2 ^ bits ≤ dividend / divisor := by
    rw [Nat.le_div_iff_mul_le nonzero]
    calc 2 ^ bits * divisor ≤ 2 ^ bits * 2 ^ (divisor.log2 + 1) := Nat.mul_le_mul_left _ above.le
      _ = 2 ^ (bits + divisor.log2 + 1) := by rw [← pow_add, add_assoc]
      _ ≤ 2 ^ dividend.log2 := Nat.pow_le_pow_right two_pos room
      _ ≤ dividend := below
  exact (Nat.le_log2 (Nat.ne_of_gt ((Nat.two_pow_pos bits).trans_le reached))).mpr reached

theorem log2_shift_left {number : ℕ} (positive : 0 < number) (places : ℕ) :
    (number <<< places).log2 = number.log2 + places := by
  have unit := Nat.two_pow_pos places
  rw [Nat.shiftLeft_eq, Nat.log2_eq_iff (Nat.mul_pos positive unit).ne']
  constructor
  · rw [pow_add]
    exact Nat.mul_le_mul_right _ (Nat.log2_self_le positive.ne')
  · rw [add_right_comm, pow_add]
    exact Nat.mul_lt_mul_of_pos_right Nat.lt_log2_self unit

/-- The mark of a division tells on which side of one half the remainder lies. -/
theorem represents_fraction (quotient : ℕ) {remainder divisor : ℕ} (below : remainder < divisor) :
    Represents (ExtendedMantissa.ofMantissaAndAccuracy quotient
      (accuracyOfFraction remainder divisor)) (quotient + (remainder : ℚ) / divisor) := by
  have positive : (0 : ℚ) < divisor := by exact_mod_cast Nat.zero_lt_of_lt below
  unfold accuracyOfFraction
  by_cases exact : remainder = 0
  · rw [if_pos exact, exact]
    change _ = (quotient : ℚ)
    simp
  · rw [if_neg exact]
    have part : (0 : ℚ) < remainder / divisor := by
      apply div_pos _ positive
      exact_mod_cast Nat.pos_of_ne_zero exact
    rcases lt_trichotomy (2 * remainder) divisor with less | same | more
    · rw [compare_lt_iff_lt.mpr less]
      have half : (remainder : ℚ) / divisor < 1 / 2 := by
        rw [div_lt_div_iff₀ positive two_pos]
        exact_mod_cast (by omega)
      change (quotient : ℚ) < _ ∧ _ < (quotient : ℚ) + 1 / 2
      constructor <;> linarith
    · rw [compare_eq_iff_eq.mpr same]
      have half : (remainder : ℚ) / divisor = 1 / 2 := by
        rw [div_eq_div_iff positive.ne' two_ne_zero]
        exact_mod_cast (by omega)
      exact congrArg _ half
    · rw [compare_gt_iff_gt.mpr more]
      have half : 1 / 2 < (remainder : ℚ) / divisor := by
        rw [div_lt_div_iff₀ two_pos positive]
        exact_mod_cast (by omega)
      have whole : (remainder : ℚ) / divisor < 1 := by
        rw [div_lt_one₀ positive]
        exact_mod_cast below
      change (quotient : ℚ) + 1 / 2 < _ ∧ _ < (quotient : ℚ) + 1
      constructor <;> linarith

theorem represents_div (dividend : ℕ) {divisor : ℕ} (nonzero : 0 < divisor) :
    Represents (ExtendedMantissa.ofMantissaAndAccuracy (dividend / divisor)
      (accuracyOfFraction (dividend % divisor) divisor)) (dividend / divisor) := by
  have split : (dividend : ℚ) / divisor =
      (dividend / divisor : ℕ) + (dividend % divisor : ℕ) / divisor := by
    have whole :
        (divisor : ℚ) * (dividend / divisor : ℕ) + (dividend % divisor : ℕ) = dividend := by
      exact_mod_cast Nat.div_add_mod dividend divisor
    rw [← whole, add_div, mul_div_cancel_left₀ _ (by exact_mod_cast nonzero.ne')]
  rw [split]
  exact represents_fraction _ (Nat.mod_lt dividend nonzero)

section Operations

variable {number : ℚ} {left right double : ℕ} {leftExponent rightExponent place : ℤ}
  {leftSign rightSign : Sign}

/-- The dividend is shifted until the quotient has every digit that a double keeps. -/
theorem div_core_eq (leftExponent rightExponent : ℤ) (leftPositive : 0 < left)
    (rightPositive : 0 < right) :
    ∃ (shift : ℕ) (reached : ℤ),
      divCore Format.binary64 left leftExponent right rightExponent =
        (left <<< shift / right, reached, accuracyOfFraction (left <<< shift % right) right) ∧
      leftExponent = shift + reached + rightExponent ∧
      reached ≤ max (((left <<< shift / right).log2 : ℤ) + reached - 52) (-1074) := by
  have bound : Format.binary64.targetExponent
      (totalExponent left leftExponent - totalExponent right rightExponent) =
      max ((left.log2 : ℤ) + leftExponent - right.log2 - rightExponent - 53) (-1074) := by
    simp only [Format.targetExponent, totalExponent, Format.mantissaBits, Format.minExponent]
    norm_num
    omega
  generalize target : min (leftExponent - rightExponent) (Format.binary64.targetExponent
    (totalExponent left leftExponent - totalExponent right rightExponent)) = reached
  have under : reached ≤ leftExponent - rightExponent := target ▸ min_le_left _ _
  obtain ⟨shift, split⟩ := Int.le.dest under
  have places : (leftExponent - rightExponent - reached).toNat = shift := by omega
  refine ⟨shift, reached, ?_, by omega, ?_⟩
  · simp only [divCore, target, places]
  · have long := log2_shift_left leftPositive shift
    rw [bound] at target
    by_cases small : reached ≤ -1074
    · omega
    · have enough : 52 ≤ (left <<< shift / right).log2 := by
        apply log2_le_log2_div (by rw [Nat.shiftLeft_eq]; positivity) rightPositive
        omega
      omega

theorem div_around (isDouble : IsDouble double place) (leftPositive : 0 < left)
    (rightPositive : 0 < right)
    (around : Around (left * 2 ^ leftExponent / (right * 2 ^ rightExponent)) double place) :
    UnpackedFloat.div Format.binary64 (.finite leftSign left leftExponent leftPositive)
        (.finite rightSign right rightExponent rightPositive) =
      .finite (leftSign / rightSign) double place isDouble.positive := by
  obtain ⟨shift, reached, divided, sum, enough⟩ :=
    div_core_eq leftExponent rightExponent leftPositive rightPositive
  simp only [UnpackedFloat.div, divided]
  apply round_around isDouble around
  · have scaled : (left : ℚ) * 2 ^ leftExponent / (right * 2 ^ rightExponent) / 2 ^ reached =
        (left <<< shift : ℕ) / right := by
      rw [sum, zpow_add₀ two_ne_zero, zpow_add₀ two_ne_zero, zpow_natCast, Nat.shiftLeft_eq]
      push_cast
      field_simp
    rw [scaled]
    exact represents_div _ rightPositive
  · rw [target_exponent_eq]
    exact enough

theorem mul_around (isDouble : IsDouble double place) (leftPositive : 0 < left)
    (rightPositive : 0 < right) (long : 2 ^ 52 ≤ left * right)
    (around : Around (left * 2 ^ leftExponent * (right * 2 ^ rightExponent)) double place) :
    UnpackedFloat.mul Format.binary64 (.finite leftSign left leftExponent leftPositive)
        (.finite rightSign right rightExponent rightPositive) =
      .finite (leftSign * rightSign) double place isDouble.positive := by
  have bits : 52 ≤ (left * right).log2 := (Nat.le_log2 (by omega)).mpr long
  apply round_around isDouble around
  · change _ = ((left * right : ℕ) : ℚ)
    rw [zpow_add₀ two_ne_zero]
    push_cast
    field_simp
  · rw [target_exponent_eq]
    omega
end Operations

section Floats

variable {left right double : ℕ} {leftExponent rightExponent place : ℤ}

theorem div_of_parts (isDouble : IsDouble double place) (leftDouble : IsDouble left leftExponent)
    (rightDouble : IsDouble right rightExponent)
    (around : Around (left * 2 ^ leftExponent / (right * 2 ^ rightExponent)) double place) :
    ofParts .positive leftDouble / ofParts .positive rightDouble = ofParts .positive isDouble := by
  change (⟨.pack (UnpackedFloat.div Format.binary64 (ofParts .positive leftDouble).toModel.unpack
    (ofParts .positive rightDouble).toModel.unpack)⟩ : Float) = _
  rw [unpack_of_parts, unpack_of_parts, div_around isDouble _ _ around]
  rfl

theorem mul_of_parts (isDouble : IsDouble double place) (leftDouble : IsDouble left leftExponent)
    (rightDouble : IsDouble right rightExponent) (long : 2 ^ 52 ≤ left * right)
    (around : Around (left * 2 ^ leftExponent * (right * 2 ^ rightExponent)) double place) :
    ofParts .positive leftDouble * ofParts .positive rightDouble = ofParts .positive isDouble := by
  change (⟨.pack (UnpackedFloat.mul Format.binary64 (ofParts .positive leftDouble).toModel.unpack
    (ofParts .positive rightDouble).toModel.unpack)⟩ : Float) = _
  rw [unpack_of_parts, unpack_of_parts, mul_around isDouble _ _ long around]
  rfl

theorem around_self (double : ℕ) (place : ℤ) :
    Around (double * 2 ^ place) double place := by
  have same : (double : ℚ) * 2 ^ place / 2 ^ place = double := by field_simp
  refine ⟨⟨?_, ?_, ?_⟩, ?_⟩ <;> rw [same]
  · linarith
  · linarith
  · intro _
    constructor <;> linarith
  · intro _ _
    linarith

theorem log2_le_of_short {number : ℕ} (positive : 0 < number) (short : number < 2 ^ 53) :
    number.log2 ≤ 52 :=
  Nat.le_of_lt_succ ((Nat.log2_lt positive.ne').mpr short)

theorem is_double_of_short {number : ℕ} (positive : 0 < number) (short : number < 2 ^ 53) :
    IsDouble (number <<< (52 - number.log2)) ((number.log2 : ℤ) - 52) := by
  have bits := log2_le_of_short positive short
  have shifted := log2_shift_left positive (52 - number.log2)
  rw [Nat.add_sub_cancel' bits, Nat.log2_eq_iff (by rw [Nat.shiftLeft_eq]; positivity)] at shifted
  refine ⟨by omega, shifted.2, by omega, by omega, .inl shifted.1⟩

theorem short_value {number : ℕ} (positive : 0 < number) (short : number < 2 ^ 53) :
    ((number <<< (52 - number.log2) : ℕ) : ℚ) * 2 ^ ((number.log2 : ℤ) - 52) = number := by
  have bits := log2_le_of_short positive short
  have lowered : (number.log2 : ℤ) - 52 = -((52 - number.log2 : ℕ) : ℤ) := by omega
  rw [lowered, zpow_neg, zpow_natCast, Nat.shiftLeft_eq]
  push_cast
  field_simp

theorem to_float_eq {number : ℕ} (positive : 0 < number) (short : number < 2 ^ 53) :
    number.toUInt64.toFloat = ofParts .positive (is_double_of_short positive short) := by
  have bits := log2_le_of_short positive short
  have word : number.toUInt64.toNat = number := by
    change number % 2 ^ 64 = number
    omega
  have target :
      Format.binary64.targetExponent (totalExponent number 0) = (number.log2 : ℤ) - 52 := by
    rw [target_exponent_eq]
    omega
  have places : (0 - ((number.log2 : ℤ) - 52)).toNat = 52 - number.log2 := by omega
  have lowered : (0 : ℤ) - (52 - number.log2 : ℕ) = (number.log2 : ℤ) - 52 := by omega
  change (⟨.pack (UnpackedFloat.normalize Format.binary64 (number.toUInt64.toNat : ℤ) 0
    .positive)⟩ : Float) = _
  rw [word, UnpackedFloat.normalize, compare_gt_iff_gt.mpr (by exact_mod_cast positive)]
  simp only [Int.toNat_natCast, UnpackedFloat.round, target, decreaseExponent, places, lowered]
  have isDouble := is_double_of_short positive short
  rw [round_around isDouble (around_self _ _)]
  · rfl
  · change _ = (_ : ℚ)
    field_simp
    rfl
  · rw [target_exponent_eq, log2_shift_left positive]
    omega

theorem parts_of_powers (power : Fin 23) :
    Parts.of Float.exactlyRepresentablePowersOfTen[power] =
      .finite false (((10 ^ power.val) <<< 52) >>> (10 ^ power.val).log2)
        ((10 ^ power.val).log2 - 52) (power == 0) := by
  revert power
  decide +kernel

theorem powers_exact (power : Fin 23) :
    (((10 ^ power.val) <<< 52) >>> (10 ^ power.val).log2) * 2 ^ (10 ^ power.val).log2 =
      10 ^ power.val * 2 ^ 52 := by
  revert power
  decide +kernel

theorem eq_of_parts {value : Float} {mantissa : ℕ} {exponent : ℤ} {narrow : Bool}
    (parts : Parts.of value = .finite false mantissa exponent narrow) (nonzero : mantissa ≠ 0) :
    ∃ isDouble : IsDouble mantissa exponent, value = ofParts .positive isDouble := by
  cases shape_of value with
  | special _ special => simp [parts] at special
  | zero sign zero => simp_all
  | finite sign isDouble finite =>
      simp only [parts, Parts.finite.injEq] at finite
      obtain ⟨plus, rfl, rfl, -⟩ := finite
      cases sign with
      | negative => cases plus
      | positive => exact ⟨isDouble, rfl⟩

theorem power_of_ten {power : ℕ} (bound : power < 23) :
    ∃ (mantissa : ℕ) (exponent : ℤ) (isDouble : IsDouble mantissa exponent),
      (mantissa : ℚ) * 2 ^ exponent = 10 ^ power ∧
      ∀ inside : power < Float.exactlyRepresentablePowersOfTen.size,
        Float.exactlyRepresentablePowersOfTen[power] = ofParts .positive isDouble := by
  have exact := powers_exact ⟨power, bound⟩
  have nonzero : ((10 ^ power) <<< 52) >>> (10 ^ power).log2 ≠ 0 := by
    intro zero
    rw [zero, zero_mul] at exact
    exact absurd exact.symm (by positivity)
  obtain ⟨isDouble, same⟩ := eq_of_parts (parts_of_powers ⟨power, bound⟩) nonzero
  refine ⟨_, _, isDouble, ?_, fun _ => same⟩
  rw [zpow_sub₀ two_ne_zero, ← mul_div_assoc, div_eq_iff (by positivity)]
  exact_mod_cast exact

end Floats

end KifuRatings.Decimal
