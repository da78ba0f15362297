import KifuRatings.Decimal.Shortest
import KifuRatings.Proofs.Decimal.Rounding

/-!
# The decimals that are read back as a double

The digits of a double are searched on ever finer grids of decimals. Whatever is hit lies between
the midpoints around the double, and on a grid finer than its last bit something is hit.
-/

namespace KifuRatings.Decimal

structure Interval.Holds (interval : Interval) (number : ℚ) : Prop where
  low : interval.low ≤ number / 2 ^ interval.exponent
  high : number / 2 ^ interval.exponent ≤ interval.high
  inner : interval.closed = false →
    interval.low < number / 2 ^ interval.exponent ∧
      number / 2 ^ interval.exponent < interval.high

def Interval.contains (interval : Interval) (unit position : ℕ) : Bool :=
  if interval.closed then interval.low * unit ≤ position && position ≤ interval.high * unit
  else interval.low * unit < position && position < interval.high * unit

/-- The integers in which the steps of a grid and the interval's unit are measured. -/
def Interval.gridStep (interval : Interval) (grid : ℤ) : ℕ :=
  Nat.pow 10 grid.toNat * Nat.pow 2 (-interval.exponent).toNat

def Interval.gridUnit (interval : Interval) (grid : ℤ) : ℕ :=
  Nat.pow 2 interval.exponent.toNat * Nat.pow 10 (-grid).toNat

theorem on_grid_eq (interval : Interval) (grid : ℤ) :
    interval.onGrid? grid =
      let step := interval.gridStep grid
      let unit := interval.gridUnit grid
      let middle := interval.middle * unit
      let below := middle / step
      let above := below + 1
      if interval.contains unit (above * step) && (!interval.contains unit (below * step)
        || above * step - middle ≤ middle - below * step) then some above
      else if interval.contains unit (below * step) then some below
      else none := rfl

section Grid

variable {interval : Interval} {grid : ℤ} {count : ℕ}

theorem to_nat_powers (base : ℚ) (nonzero : base ≠ 0) (exponent : ℤ) :
    base ^ exponent.toNat = base ^ exponent * base ^ (-exponent).toNat := by
  rw [← zpow_natCast, ← zpow_natCast, ← zpow_add₀ nonzero]
  congr 1
  omega

theorem grid_unit_pos (interval : Interval) (grid : ℤ) : 0 < interval.gridUnit grid :=
  Nat.mul_pos (Nat.two_pow_pos _) (Nat.pow_pos (by decide))

theorem grid_step_pos (interval : Interval) (grid : ℤ) : 0 < interval.gridStep grid :=
  Nat.mul_pos (Nat.pow_pos (by decide)) (Nat.two_pow_pos _)

theorem grid_step_eq : (interval.gridStep grid : ℚ) =
    10 ^ grid / 2 ^ interval.exponent * interval.gridUnit grid := by
  have tens := to_nat_powers 10 (by norm_num) grid
  have twos := to_nat_powers 2 (by norm_num) interval.exponent
  simp only [Interval.gridStep, Interval.gridUnit, Nat.pow_eq]
  push_cast
  rw [tens, twos]
  field_simp

theorem contains_of_on_grid (hit : interval.onGrid? grid = some count) :
    interval.contains (interval.gridUnit grid) (count * interval.gridStep grid) = true := by
  rw [on_grid_eq] at hit
  simp only at hit
  split at hit
  · rename_i inside
    rw [Bool.and_eq_true] at inside
    cases hit
    exact inside.1
  split at hit
  · rename_i inside
    cases hit
    exact inside
  · cases hit

theorem holds_of_on_grid (hit : interval.onGrid? grid = some count) :
    interval.Holds (count * 10 ^ grid) := by
  have unit : (0 : ℚ) < interval.gridUnit grid := by exact_mod_cast grid_unit_pos interval grid
  have inside := contains_of_on_grid hit
  have position : (count : ℚ) * 10 ^ grid / 2 ^ interval.exponent =
      (count * interval.gridStep grid : ℕ) / interval.gridUnit grid := by
    rw [eq_div_iff unit.ne', Nat.cast_mul, grid_step_eq]
    ring
  generalize count * interval.gridStep grid = point at inside position
  have ends : (interval.low * interval.gridUnit grid ≤ point ∧
        point ≤ interval.high * interval.gridUnit grid) ∧
      (interval.closed = false → interval.low * interval.gridUnit grid < point ∧
        point < interval.high * interval.gridUnit grid) := by
    unfold Interval.contains at inside
    grind
  obtain ⟨⟨low, high⟩, inner⟩ := ends
  constructor <;> rw [position]
  · rw [le_div_iff₀ unit]
    exact_mod_cast low
  · rw [div_le_iff₀ unit]
    exact_mod_cast high
  · intro opened
    rw [lt_div_iff₀ unit, div_lt_iff₀ unit]
    exact_mod_cast inner opened

theorem on_grid_of_fine (below : interval.low ≤ interval.middle)
    (above : interval.middle + 1 < interval.high) (fine : (10 : ℚ) ^ grid ≤ 2 ^ interval.exponent) :
    ∃ count, interval.onGrid? grid = some count := by
  have steps : interval.gridStep grid ≤ interval.gridUnit grid := by
    have unit : (0 : ℚ) < interval.gridUnit grid := by exact_mod_cast grid_unit_pos interval grid
    have scaled : (interval.gridStep grid : ℚ) ≤ 1 * interval.gridUnit grid := by
      rw [grid_step_eq]
      gcongr
      rwa [div_le_one₀ (by positivity)]
    exact_mod_cast scaled.trans_eq (one_mul _)
  have inside : interval.contains (interval.gridUnit grid)
      ((interval.middle * interval.gridUnit grid / interval.gridStep grid + 1) *
        interval.gridStep grid) = true := by
    have floor := Nat.div_mul_le_self (interval.middle * interval.gridUnit grid)
      (interval.gridStep grid)
    have ceiling := Nat.lt_div_mul_add (a := interval.middle * interval.gridUnit grid)
      (grid_step_pos interval grid)
    have left := Nat.mul_le_mul_right (interval.gridUnit grid) below
    have right := Nat.mul_lt_mul_of_pos_right above (grid_unit_pos interval grid)
    rw [Nat.add_mul, one_mul] at right
    rw [Nat.add_mul, one_mul]
    unfold Interval.contains
    split <;> simp only [Bool.and_eq_true, decide_eq_true_eq] <;> omega
  rw [on_grid_eq]
  simp only [inside, Bool.true_and]
  split
  · exact ⟨_, rfl⟩
  · rename_i notNearer
    simp only [Bool.or_eq_true, Bool.not_eq_true', not_or, Bool.not_eq_false] at notNearer
    rw [if_pos notNearer.1]
    exact ⟨_, rfl⟩

/-- Going down from a grid stops at the first hit, if there is one. -/
theorem coarsest_hits {tries skipped : ℕ} (early : skipped < tries)
    (hit : ∃ count, interval.onGrid? (grid - skipped) = some count) :
    ∃ count reached, interval.coarsest tries grid = (count, reached) ∧
      interval.onGrid? reached = some count := by
  induction tries generalizing grid skipped with
  | zero => exact absurd early (Nat.not_lt_zero _)
  | succ tries induction =>
      rw [Interval.coarsest]
      cases now : interval.onGrid? grid with
      | some count => exact ⟨count, grid, rfl, now⟩
      | none =>
          cases skipped with
          | zero =>
              obtain ⟨count, found⟩ := hit
              rw [Nat.cast_zero, sub_zero, now] at found
              cases found
          | succ skipped =>
              have later : ∃ count, interval.onGrid? (grid - 1 - skipped) = some count := by
                rw [sub_sub, add_comm]
                exact_mod_cast hit
              exact induction (Nat.lt_of_succ_lt_succ early) later

end Grid

/-! ## Where the search starts -/

theorem ten_pow_le_two_pow {tens twos : ℤ} (up : 0 ≤ tens → 10 * tens ≤ 3 * twos)
    (down : tens ≤ 0 → 23 * tens ≤ 7 * twos) : (10 : ℚ) ^ tens ≤ 2 ^ twos := by
  rcases le_total 0 tens with sign | sign
  · obtain ⟨power, rfl⟩ := Int.eq_ofNat_of_zero_le sign
    apply le_of_pow_le_pow_left₀ (n := 3) (by decide) (by positivity)
    calc ((10 : ℚ) ^ (power : ℤ)) ^ 3 = (10 ^ 3) ^ power := by
          rw [zpow_natCast, ← pow_mul, ← pow_mul, mul_comm]
      _ ≤ (2 ^ 10) ^ power := by gcongr; norm_num
      _ = 2 ^ (10 * (power : ℤ)) := by rw [← pow_mul, ← zpow_natCast]; norm_cast
      _ ≤ 2 ^ (3 * twos) := zpow_le_zpow_right₀ one_le_two (up sign)
      _ = (2 ^ twos) ^ 3 := by rw [mul_comm, zpow_mul]; norm_cast
  · obtain ⟨power, rfl⟩ := Int.exists_eq_neg_ofNat sign
    apply le_of_pow_le_pow_left₀ (n := 7) (by decide) (by positivity)
    calc ((10 : ℚ) ^ (-(power : ℤ))) ^ 7 = ((10 ^ 7) ^ power)⁻¹ := by
          rw [zpow_neg, zpow_natCast, inv_pow, ← pow_mul, ← pow_mul, mul_comm]
      _ ≤ ((2 ^ 23) ^ power)⁻¹ := by gcongr; norm_num
      _ = 2 ^ (23 * (-(power : ℤ))) := by
        rw [← pow_mul, mul_neg, zpow_neg, ← zpow_natCast]
        norm_cast
      _ ≤ 2 ^ (7 * twos) := zpow_le_zpow_right₀ one_le_two (down sign)
      _ = (2 ^ twos) ^ 7 := by rw [mul_comm, zpow_mul]; norm_cast

theorem start_grid_cases (interval : Interval) :
    let width : ℤ := Nat.log2 interval.high + 1 + interval.exponent
    (0 ≤ width ∧ interval.startGrid = width * 30103 / 100000 + 1) ∨
      (width < 0 ∧ interval.startGrid = width * 30102 / 100000 + 1) := by
  intro width
  rcases le_or_gt 0 width with sign | sign
  · exact .inl ⟨sign, if_pos sign⟩
  · exact .inr ⟨sign, if_neg (not_le.mpr sign)⟩

section Double

variable {mantissa : ℕ} {exponent : ℤ} {narrow : Bool}

theorem start_is_close (isDouble : IsDouble mantissa exponent) (narrow : Bool) :
    (10 : ℚ) ^ ((Interval.around mantissa exponent narrow).startGrid - 23) ≤
      2 ^ (exponent - 2) := by
  have positive := isDouble.positive
  have short := isDouble.short
  have least := isDouble.least
  have greatest := isDouble.greatest
  have bits : (4 * mantissa + 2).log2 < 55 := by
    rw [Nat.log2_lt (by omega)]
    omega
  have start := start_grid_cases (Interval.around mantissa exponent narrow)
  generalize (Interval.around mantissa exponent narrow).startGrid = grid at start ⊢
  simp only [Interval.around] at start
  apply ten_pow_le_two_pow <;> intro sign <;> omega

theorem around_of_holds {number : ℚ} (positive : 0 < mantissa)
    (dense : mantissa = 2 ^ 52 → exponent ≠ -1074 → narrow = true)
    (holds : (Interval.around mantissa exponent narrow).Holds number) :
    Around number mantissa exponent := by
  obtain ⟨low, high, inner⟩ := holds
  have quarter : number / 2 ^ (exponent - 2) = 4 * (number / 2 ^ exponent) := by
    rw [zpow_sub₀ two_ne_zero]
    field_simp
    norm_num
  simp only [Interval.around] at low high inner
  rw [quarter] at low high inner
  have lowEnd : ((4 * mantissa - (if narrow then 1 else 2) : ℕ) : ℚ) =
      4 * mantissa - (if narrow then 1 else 2) := by
    rw [Nat.cast_sub (by split <;> omega)]
    split <;> simp
  rw [lowEnd] at low inner
  push_cast at high inner
  have wide : (if narrow then 1 else 2 : ℚ) ≤ 2 := by split <;> norm_num
  refine ⟨⟨?_, ?_, ?_⟩, ?_⟩
  · linarith
  · linarith
  · intro odd
    obtain ⟨left, right⟩ := inner (by simp [odd])
    constructor <;> linarith
  · intro power normal
    rw [if_pos (dense power normal)] at low
    linarith

theorem low_pos (positive : 0 < mantissa) : 0 < (Interval.around mantissa exponent narrow).low := by
  simp only [Interval.around]
  split <;> omega

theorem shortest_digits_around (isDouble : IsDouble mantissa exponent)
    (dense : mantissa = 2 ^ 52 → exponent ≠ -1074 → narrow = true) :
    ∃ count grid, shortestDigits mantissa exponent narrow = (count, grid) ∧
      0 < count ∧ Around (count * 10 ^ grid) mantissa exponent := by
  have early : 23 < gridsTried := by decide
  have fine : ∃ count, (Interval.around mantissa exponent narrow).onGrid?
      ((Interval.around mantissa exponent narrow).startGrid - (23 : ℕ)) = some count :=
    on_grid_of_fine (Nat.sub_le _ _) (Nat.lt_succ_self _) (start_is_close isDouble narrow)
  obtain ⟨count, grid, same, hit⟩ := coarsest_hits early fine
  have holds := holds_of_on_grid hit
  refine ⟨count, grid, same, ?_, around_of_holds isDouble.positive dense holds⟩
  apply Nat.pos_of_ne_zero
  rintro rfl
  have low := holds.low
  rw [Nat.cast_zero, zero_mul, zero_div] at low
  exact absurd (low_pos isDouble.positive) (not_lt.mpr (by exact_mod_cast low))

end Double

end KifuRatings.Decimal
