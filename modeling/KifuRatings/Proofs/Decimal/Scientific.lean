import KifuRatings.Decimal.Reader
import KifuRatings.Proofs.Decimal.Arithmetic

/-!
# Decimals as doubles

A decimal is read by one product or one quotient with a power of ten. What lies around a double is
neither too long nor too short for that, and is read as the double.
-/

open Float.Model Float.Model.UnpackedFloat

namespace KifuRatings.Decimal

variable {significand double : ℕ} {place : ℤ}

theorem unpacked_of_scientific (positive : 0 < significand) {exponent : ℤ}
    (isDouble : IsDouble double place)
    (around : Around (significand * 10 ^ exponent) double place) (high : exponent ≤ 2 ^ 11)
    (low : -(2 ^ 11 + (significand.log2 : ℤ)) ≤ exponent) :
    UnpackedFloat.ofScientific Format.binary64 significand exponent =
      .finite .positive double place isDouble.positive := by
  have notHuge : ¬ exponent > 2 ^ Format.binary64.exponentBits := not_lt.mpr high
  have notTiny : ¬ exponent < -((2 ^ Format.binary64.exponentBits : ℤ) + significand.log2) :=
    not_lt.mpr low
  have bits : Format.binary64.mantissaBits = 53 := rfl
  simp only [UnpackedFloat.ofScientific, positive.ne', dif_neg, if_neg, notHuge, notTiny,
    not_false_eq_true, bits]
  by_cases whole : 0 ≤ exponent
  · obtain ⟨power, rfl⟩ := Int.eq_ofNat_of_zero_le whole
    rw [zpow_natCast] at around
    simp only [if_pos whole, Int.toNat_natCast]
    have raised : 2 ^ 52 ≤ significand <<< 53 := by
      rw [Nat.shiftLeft_eq]
      omega
    have long : 2 ^ 52 ≤ significand <<< 53 * 10 ^ power :=
      raised.trans (Nat.le_mul_of_pos_right _ (by positivity))
    have same : ((significand <<< 53 : ℕ) : ℚ) * 2 ^ (-53 : ℤ) * ((10 ^ power : ℕ) * 2 ^ (0 : ℤ)) =
        significand * 10 ^ power := by
      rw [Nat.shiftLeft_eq, zpow_zero, mul_one, zpow_neg]
      push_cast
      field_simp
    exact mul_around isDouble _ _ long (same.symm ▸ around)
  · obtain ⟨power, rfl⟩ := Int.exists_eq_neg_ofNat (le_of_not_ge whole)
    rw [zpow_neg, zpow_natCast, ← div_eq_mul_inv] at around
    simp only [if_neg whole, neg_neg, Int.toNat_natCast]
    have same : (significand : ℚ) * 2 ^ (0 : ℤ) / ((10 ^ power : ℕ) * 2 ^ (0 : ℤ)) =
        significand / 10 ^ power := by
      push_cast
      rw [mul_one, mul_one]
    exact div_around isDouble _ _ (same.symm ▸ around)

theorem of_scientific_product (positive : 0 < significand) {power : ℕ}
    (isDouble : IsDouble double place) (around : Around (significand * 10 ^ power) double place)
    (notHuge : power ≤ 2 ^ 11) :
    Float.ofScientific significand false power = ofParts .positive isDouble := by
  by_cases fast : significand < 2 ^ 53 ∧ power ≤ 22
  · obtain ⟨mantissa, exponent, powerDouble, exact, same⟩ :=
      power_of_ten (Nat.lt_succ_of_le fast.2)
    have numberDouble := is_double_of_short positive fast.1
    have long := numberDouble.long.resolve_right (by omega)
    rw [← exact, ← short_value positive fast.1] at around
    rw [Float.ofScientific, dif_pos fast, to_float_eq positive fast.1]
    simp only [same]
    exact mul_of_parts isDouble numberDouble powerDouble
      (long.trans (Nat.le_mul_of_pos_right _ powerDouble.positive)) around
  · rw [← zpow_natCast] at around
    rw [Float.ofScientific, dif_neg fast]
    apply congrArg (fun unpacked => (⟨.pack unpacked⟩ : Float))
    have exponent : Int.ofNat power = (power : ℤ) := rfl
    rw [if_neg Bool.false_ne_true, exponent]
    exact unpacked_of_scientific positive isDouble around (by omega) (by omega)

theorem of_scientific_quotient (positive : 0 < significand) {power : ℕ}
    (isDouble : IsDouble double place) (around : Around (significand / 10 ^ power) double place)
    (notTiny : power ≤ 2 ^ 11 + significand.log2) :
    Float.ofScientific significand true power = ofParts .positive isDouble := by
  by_cases fast : significand < 2 ^ 53 ∧ power ≤ 22
  · obtain ⟨mantissa, exponent, powerDouble, exact, same⟩ :=
      power_of_ten (Nat.lt_succ_of_le fast.2)
    rw [← exact, ← short_value positive fast.1] at around
    rw [Float.ofScientific, dif_pos fast, to_float_eq positive fast.1]
    simp only [same]
    exact div_of_parts isDouble (is_double_of_short positive fast.1) powerDouble around
  · have exponent : Int.negOfNat power = -(power : ℤ) := by cases power <;> rfl
    rw [div_eq_mul_inv, ← zpow_natCast, ← zpow_neg] at around
    rw [Float.ofScientific, dif_neg fast]
    apply congrArg (fun unpacked => (⟨.pack unpacked⟩ : Float))
    rw [if_pos rfl, exponent]
    exact unpacked_of_scientific positive isDouble around (by omega) (by omega)

theorem scale_of_double (isDouble : IsDouble double place) {number : ℚ}
    (around : Around number double place) :
    (2 : ℚ) ^ (-1075 : ℤ) ≤ number ∧ number < 2 ^ (1024 : ℤ) := by
  have unit : (0 : ℚ) < 2 ^ place := by positivity
  have low := around.nearest.low
  have high := around.nearest.high
  have positive : (1 : ℚ) ≤ double := by exact_mod_cast isDouble.positive
  have short : (double : ℚ) + 1 ≤ 2 ^ 53 := by exact_mod_cast isDouble.short
  have least := isDouble.least
  have greatest := isDouble.greatest
  rw [le_div_iff₀ unit] at low
  rw [div_le_iff₀ unit] at high
  constructor
  · calc (2 : ℚ) ^ (-1075 : ℤ) ≤ 2 ^ (place - 1) := zpow_le_zpow_right₀ one_le_two (by omega)
      _ = 1 / 2 * 2 ^ place := by rw [zpow_sub_one₀ two_ne_zero]; ring
      _ ≤ (double - 1 / 2) * 2 ^ place := by gcongr; linarith
      _ ≤ number := low
  · calc number ≤ (double + 1 / 2) * 2 ^ place := high
      _ < 2 ^ 53 * 2 ^ place := by gcongr; linarith
      _ = 2 ^ (place + 53) := by rw [zpow_add₀ two_ne_zero]; ring
      _ ≤ 2 ^ (1024 : ℤ) := zpow_le_zpow_right₀ one_le_two (by omega)

theorem digits_bounds (positive : 0 < significand) :
    10 ^ ((Nat.toDigits 10 significand).length - 1) ≤ significand ∧
      significand < 10 ^ (Nat.toDigits 10 significand).length := by
  have some : 0 < (Nat.toDigits 10 significand).length := Nat.length_toDigits_pos
  constructor
  · by_cases one : (Nat.toDigits 10 significand).length - 1 = 0
    · rw [one]
      exact positive
    · have less : ¬ (Nat.toDigits 10 significand).length ≤
          (Nat.toDigits 10 significand).length - 1 := by omega
      rw [Nat.length_toDigits_le_iff (by decide) (Nat.pos_of_ne_zero one)] at less
      exact not_lt.mp less
  · exact (Nat.length_toDigits_le_iff (by decide) some).mp le_rfl

theorem digits_le_bits (significand : ℕ) :
    (Nat.toDigits 10 significand).length ≤ significand.log2 + 1 := by
  rw [Nat.length_toDigits_le_iff (by decide) (Nat.succ_pos _)]
  exact Nat.lt_log2_self.trans_le (Nat.pow_le_pow_left (by decide) _)

theorem tens_lt {left right : ℤ} {number : ℚ} (low : (10 : ℚ) ^ left ≤ number)
    (high : number < 10 ^ right) : left < right :=
  (zpow_lt_zpow_iff_right₀ (by norm_num)).mp (low.trans_lt high)

/-- The digits of what lies around a double end near its point. -/
theorem scale_of_digits (positive : 0 < significand) {exponent : ℤ}
    (isDouble : IsDouble double place)
    (around : Around (significand * 10 ^ exponent) double place) :
    -400 ≤ exponent + (Nat.toDigits 10 significand).length ∧
      exponent + (Nat.toDigits 10 significand).length ≤ 400 := by
  obtain ⟨tiny, huge⟩ := scale_of_double isDouble around
  obtain ⟨low, high⟩ := digits_bounds positive
  have some : 0 < (Nat.toDigits 10 significand).length := Nat.length_toDigits_pos
  generalize (Nat.toDigits 10 significand).length = digits at *
  have unit : (0 : ℚ) < 10 ^ exponent := by positivity
  have ten : (10 : ℚ) ≠ 0 := by norm_num
  constructor
  · have bound : (10 : ℚ) ^ (-400 : ℤ) ≤ 2 ^ (-1075 : ℤ) := by
      rw [zpow_neg, zpow_neg, inv_le_inv₀ (by positivity) (by positivity)]
      exact_mod_cast (by decide +kernel : 2 ^ 1075 ≤ 10 ^ 400)
    have reached : (significand : ℚ) * 10 ^ exponent < 10 ^ (exponent + digits) := by
      rw [add_comm, zpow_add₀ ten, zpow_natCast]
      gcongr
      exact_mod_cast high
    exact (tens_lt (bound.trans tiny) reached).le
  · have bound : (2 : ℚ) ^ (1024 : ℤ) ≤ 10 ^ (400 : ℤ) := by
      exact_mod_cast (by decide +kernel : 2 ^ 1024 ≤ 10 ^ 400)
    have reached : (10 : ℚ) ^ (exponent + (digits - 1 : ℕ)) ≤ significand * 10 ^ exponent := by
      rw [add_comm, zpow_add₀ ten, zpow_natCast]
      gcongr
      exact_mod_cast low
    have := tens_lt reached (huge.trans_le bound)
    omega

/-- A decimal that is rounded to a double is read as that double. -/
theorem scientific_around (positive : 0 < significand) {exponent : ℤ}
    (isDouble : IsDouble double place)
    (around : Around (significand * 10 ^ exponent) double place) :
    scientific significand exponent = ofParts .positive isDouble := by
  obtain ⟨notTiny, notHuge⟩ := scale_of_digits positive isDouble around
  have bits := digits_le_bits significand
  unfold scientific
  rw [if_neg (by simp [positive.ne']), if_neg (not_lt.mpr notHuge), if_neg (not_lt.mpr notTiny)]
  cases exponent with
  | ofNat power =>
      apply of_scientific_product positive isDouble
      · simpa using around
      · have : (power : ℤ) + (Nat.toDigits 10 significand).length ≤ 400 := notHuge
        omega
  | negSucc power =>
      apply of_scientific_quotient positive isDouble
      · rw [zpow_negSucc, ← div_eq_mul_inv] at around
        exact around
      · omega

end KifuRatings.Decimal
