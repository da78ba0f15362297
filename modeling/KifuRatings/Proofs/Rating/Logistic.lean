import KifuRatings.Proofs.Rating.Exact
import KifuRatings.Rating.Term

/-!
# The logistic curve

Softplus lies above its tangents, and touches them in one point only. Its slope is the logistic
curve, and the slope of the logistic curve is the `bend` of softplus: positive everywhere, at most
one quarter, and the smaller the further from zero. It tells how much a drawn game at a difference
of strengths says about this difference.
-/

namespace KifuRatings.Logistic

theorem sigmoid_eq_exp (x : ℝ) : Real.sigmoid x = Real.exp x / (1 + Real.exp x) := by
  have positive := Real.exp_pos x
  rw [Real.sigmoid_def, Real.exp_neg]
  field_simp
  ring

theorem sigmoid_eq (x : ℝ) : (Link.logistic : Link ℝ).sigmoid x = Real.sigmoid x := by
  have branches : (Link.logistic : Link ℝ).sigmoid x =
      if 0 ≤ x then 1 / (1 + Real.exp (-x)) else Real.exp x / (1 + Real.exp x) := rfl
  rw [branches]
  split
  · rw [Real.sigmoid_def, one_div]
  · exact (sigmoid_eq_exp x).symm

/-- The logarithm of `1 + e ^ x`. -/
noncomputable def softplus (x : ℝ) : ℝ := Real.log (1 + Real.exp x)

theorem softplus_eq (x : ℝ) : (Link.logistic : Link ℝ).softplus x = softplus x := by
  have parts : (Link.logistic : Link ℝ).softplus x =
      max x 0 + Real.log (1 + Real.exp (-|x|)) := rfl
  rw [parts, softplus]
  rcases le_total 0 x with nonneg | nonpos
  · have split : 1 + Real.exp x = Real.exp x * (1 + Real.exp (-x)) := by
      rw [mul_add, ← Real.exp_add, add_neg_cancel, Real.exp_zero, mul_one, add_comm]
    rw [max_eq_left nonneg, abs_of_nonneg nonneg, split,
      Real.log_mul (Real.exp_pos x).ne' (by positivity), Real.log_exp]
  · rw [max_eq_right nonpos, abs_of_nonpos nonpos, neg_neg, zero_add]

theorem softplus_continuous : Continuous softplus := by
  apply Continuous.log
  · fun_prop
  · intro x
    positivity

theorem softplus_derivative (x : ℝ) : HasDerivAt softplus (Real.sigmoid x) x := by
  have positive : 0 < 1 + Real.exp x := by positivity
  rw [sigmoid_eq_exp]
  exact ((Real.hasDerivAt_exp x).const_add 1).log positive.ne'

theorem softplus_pos (x : ℝ) : 0 < softplus x :=
  Real.log_pos (lt_add_of_pos_right 1 (Real.exp_pos x))

@[simp]
theorem softplus_zero : softplus 0 = Real.log 2 := by
  rw [softplus, Real.exp_zero, one_add_one_eq_two]

theorem le_softplus (x : ℝ) : x ≤ softplus x := by
  calc
    x = Real.log (Real.exp x) := (Real.log_exp x).symm
    _ ≤ softplus x := Real.log_le_log (Real.exp_pos x) (le_add_of_nonneg_left zero_le_one)

theorem tangent_lt_softplus {x y : ℝ} (different : x ≠ y) :
    softplus x + Real.sigmoid x * (y - x) < softplus y := by
  have positive : 0 < 1 + Real.exp x := by positivity
  -- Softplus grows by the logarithm of a weighted mean of exponentials.
  have ratio : 1 + Real.exp y =
      (1 + Real.exp x) *
        (Real.sigmoid x * Real.exp (y - x) + (1 - Real.sigmoid x) * Real.exp 0) := by
    rw [Real.exp_sub, Real.exp_zero, Real.sigmoid_def, Real.exp_neg]
    field_simp
    ring
  have convex := strictConvexOn_exp.2 (Set.mem_univ (y - x)) (Set.mem_univ (0 : ℝ))
    (sub_ne_zero.mpr different.symm) (Real.sigmoid_pos x) (sub_pos.mpr (Real.sigmoid_lt_one x))
    (add_sub_cancel _ _)
  simp only [smul_eq_mul, mul_zero, add_zero] at convex
  calc
    softplus x + Real.sigmoid x * (y - x) =
        Real.log ((1 + Real.exp x) * Real.exp (Real.sigmoid x * (y - x))) := by
      rw [Real.log_mul positive.ne' (Real.exp_pos _).ne', Real.log_exp, softplus]
    _ < softplus y := by
      rw [softplus, ratio]
      exact Real.log_lt_log (by positivity) (mul_lt_mul_of_pos_left convex positive)

theorem tangent_le_softplus (x y : ℝ) : softplus x + Real.sigmoid x * (y - x) ≤ softplus y := by
  rcases eq_or_ne x y with same | different
  · rw [same, sub_self, mul_zero, add_zero]
  · exact (tangent_lt_softplus different).le

/-! ## Drawn games -/

/-- What a win and a loss together cost at a difference of strengths. -/
noncomputable def drawLoss (x : ℝ) : ℝ := softplus x + softplus (-x)

theorem draw_loss_neg (x : ℝ) : drawLoss (-x) = drawLoss x := by
  rw [drawLoss, drawLoss, neg_neg, add_comm]

@[simp]
theorem draw_loss_zero : drawLoss 0 = Real.log 4 := by
  have square : (4 : ℝ) = 2 * 2 := by norm_num
  rw [drawLoss, neg_zero, softplus_zero, square, Real.log_mul two_ne_zero two_ne_zero]

theorem abs_le_draw_loss (x : ℝ) : |x| ≤ drawLoss x := by
  have positive := softplus_pos x
  have negative := softplus_pos (-x)
  rw [abs_le', drawLoss]
  exact ⟨by linarith [le_softplus x], by linarith [le_softplus (-x)]⟩

/-! ## The bend -/

/-- The second derivative of softplus. -/
noncomputable def bend (x : ℝ) : ℝ := Real.sigmoid x * (1 - Real.sigmoid x)

theorem bend_pos (x : ℝ) : 0 < bend x :=
  mul_pos (Real.sigmoid_pos x) (sub_pos.mpr (Real.sigmoid_lt_one x))

theorem bend_le_quarter (x : ℝ) : bend x ≤ 1 / 4 := by
  unfold bend
  linarith [sq_nonneg (Real.sigmoid x - 1 / 2)]

@[simp]
theorem bend_neg (x : ℝ) : bend (-x) = bend x := by
  rw [bend, bend, Real.sigmoid_neg]
  ring

theorem bend_sub_comm (x y : ℝ) : bend (x - y) = bend (y - x) := by
  rw [← bend_neg, neg_sub]

@[simp]
theorem bend_zero : bend 0 = 1 / 4 := by
  rw [bend, Real.sigmoid_zero]
  norm_num

theorem log_sigmoid (x : ℝ) : Real.log (Real.sigmoid x) = -softplus (-x) := by
  rw [Real.sigmoid_def, Real.log_inv, softplus]

theorem log_bend (x : ℝ) : Real.log (bend x) = -drawLoss x := by
  rw [bend, ← Real.sigmoid_neg,
    Real.log_mul (Real.sigmoid_pos x).ne' (Real.sigmoid_pos (-x)).ne', log_sigmoid, log_sigmoid,
    neg_neg, drawLoss]
  ring

theorem bend_eq_exp (x : ℝ) : bend x = Real.exp (-drawLoss x) := by
  rw [← log_bend, Real.exp_log (bend_pos x)]

theorem bend_le_exp (x : ℝ) : bend x ≤ Real.exp (-|x|) := by
  rw [bend_eq_exp]
  exact Real.exp_le_exp.mpr (neg_le_neg (abs_le_draw_loss x))

theorem bend_eq_cosh (x : ℝ) : bend x = (2 + 2 * Real.cosh x)⁻¹ := by
  rw [bend, Real.sigmoid_def, Real.cosh_eq, Real.exp_neg]
  have positive := Real.exp_pos x
  field_simp
  ring

theorem bend_le_bend {x y : ℝ} (near : |x| ≤ |y|) : bend y ≤ bend x := by
  rw [bend_eq_cosh, bend_eq_cosh]
  have grows := Real.cosh_le_cosh.mpr near
  have positive := Real.cosh_pos x
  exact inv_anti₀ (by positivity) (by linarith)

theorem draw_loss_le (x : ℝ) : drawLoss x ≤ |x| + 2 * Real.log 2 := by
  have win := tangent_le_softplus x 0
  have loss := tangent_le_softplus (-x) 0
  have part : (Real.sigmoid x - Real.sigmoid (-x)) * x ≤ |x| := by
    have bounded : |Real.sigmoid x - Real.sigmoid (-x)| ≤ 1 := by
      rw [abs_sub_le_iff]
      constructor
      · linarith [Real.sigmoid_le_one x, Real.sigmoid_nonneg (-x)]
      · linarith [Real.sigmoid_le_one (-x), Real.sigmoid_nonneg x]
    calc
      (Real.sigmoid x - Real.sigmoid (-x)) * x ≤ |Real.sigmoid x - Real.sigmoid (-x)| * |x| := by
        rw [← abs_mul]
        exact le_abs_self _
      _ ≤ |x| := mul_le_of_le_one_left (abs_nonneg x) bounded
  rw [softplus_zero] at win loss
  rw [drawLoss]
  linarith

theorem exp_twenty_five_ge : (5.2e10 : ℝ) ≤ Real.exp 25 := by
  calc
    (5.2e10 : ℝ) ≤ 2.7 ^ 25 := by norm_num
    _ ≤ Real.exp 1 ^ 25 :=
      pow_le_pow_left₀ (by norm_num) (by linarith [Real.exp_one_gt_d9]) 25
    _ = Real.exp 25 := by
      rw [Real.exp_one_pow]
      norm_num

theorem log_four_le_draw_loss (x : ℝ) : Real.log 4 ≤ drawLoss x := by
  have bounded := Real.log_le_log (bend_pos x) (bend_le_quarter x)
  rw [log_bend, one_div, Real.log_inv] at bounded
  exact neg_le_neg_iff.mp bounded

theorem sigmoid_steepness (x y : ℝ) : (Real.sigmoid y - Real.sigmoid x) * (y - x) ≤
    (y - x) ^ 2 / 4 := by
  have bounded : ∀ z ∈ (Set.univ : Set ℝ), ‖deriv Real.sigmoid z‖ ≤ 1 / 4 := by
    intro z _
    rw [Real.deriv_sigmoid]
    change ‖bend z‖ ≤ 1 / 4
    rw [Real.norm_of_nonneg (bend_pos z).le]
    exact bend_le_quarter z
  have lipschitz := Convex.norm_image_sub_le_of_norm_deriv_le
    (fun z _ => differentiableAt_sigmoid) bounded convex_univ (Set.mem_univ x) (Set.mem_univ y)
  rw [Real.norm_eq_abs, Real.norm_eq_abs] at lipschitz
  calc
    (Real.sigmoid y - Real.sigmoid x) * (y - x) ≤ |Real.sigmoid y - Real.sigmoid x| * |y - x| := by
      rw [← abs_mul]
      exact le_abs_self _
    _ ≤ 1 / 4 * |y - x| * |y - x| := mul_le_mul_of_nonneg_right lipschitz (abs_nonneg _)
    _ = (y - x) ^ 2 / 4 := by
      rw [mul_assoc, abs_mul_abs_self]
      ring

theorem softplus_le_parabola (x y : ℝ) :
    softplus y ≤ softplus x + Real.sigmoid x * (y - x) + (y - x) ^ 2 / 4 := by
  have back := tangent_le_softplus y x
  have steepness := sigmoid_steepness x y
  linarith

end KifuRatings.Logistic
