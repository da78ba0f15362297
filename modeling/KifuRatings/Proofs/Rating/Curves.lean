import KifuRatings.Proofs.Rating.Logistic

/-!
# The curves of terms

With exact arithmetic the value, the slope and the curvature of a term are its weight times what its
shape makes of its combination. They are written down apart from each other, but the slope is the
derivative of the value and the curvature that of the slope. Both shapes lie below their tangents
and touch them in one point only.
-/

namespace KifuRatings

open Logistic

namespace Shape

section Weightless

variable (link : Link ℝ)

/-- The value of a term of weight one. -/
noncomputable def value : Shape → ℝ → ℝ
  | .sigmoid, x => -link.softplus (-x)
  | .gaussian, x => -0.5 * x * x

noncomputable def slope : Shape → ℝ → ℝ
  | .sigmoid, x => 1 - link.sigmoid x
  | .gaussian, x => -x

noncomputable def curvature : Shape → ℝ → ℝ
  | .sigmoid, x => -link.sigmoid x * (1 - link.sigmoid x)
  | .gaussian, _ => -1

end Weightless

variable (x : ℝ)

@[simp]
theorem value_sigmoid : sigmoid.value Link.logistic x = -softplus (-x) :=
  congrArg Neg.neg (softplus_eq (-x))

@[simp]
theorem slope_sigmoid : sigmoid.slope Link.logistic x = Real.sigmoid (-x) := by
  rw [Real.sigmoid_neg, ← sigmoid_eq]
  rfl

@[simp]
theorem curvature_sigmoid : sigmoid.curvature Link.logistic x = -bend x := by
  rw [bend, ← neg_mul, ← sigmoid_eq]
  rfl

variable (shape : Shape)

theorem value_derivative :
    HasDerivAt (shape.value Link.logistic) (shape.slope Link.logistic x) x := by
  cases shape with
  | sigmoid =>
      have loss := ((softplus_derivative (-x)).comp x (hasDerivAt_neg x)).neg
      rw [funext value_sigmoid, slope_sigmoid]
      apply loss.congr_deriv
      ring
  | gaussian =>
      have square := ((hasDerivAt_id x).const_mul (-0.5)).mul (hasDerivAt_id x)
      apply square.congr_deriv
      change -0.5 * 1 * x + -0.5 * x * 1 = -x
      ring

theorem slope_derivative :
    HasDerivAt (shape.slope Link.logistic) (shape.curvature Link.logistic x) x := by
  cases shape with
  | sigmoid =>
      have chance := (Real.hasDerivAt_sigmoid (-x)).comp x (hasDerivAt_neg x)
      rw [funext slope_sigmoid, curvature_sigmoid, ← bend_neg]
      apply chance.congr_deriv
      rw [bend]
      ring
  | gaussian => exact hasDerivAt_neg x

theorem value_lt_tangent {x y : ℝ} (different : x ≠ y) :
    shape.value Link.logistic y <
      shape.value Link.logistic x + shape.slope Link.logistic x * (y - x) := by
  cases shape with
  | sigmoid =>
      have tangent := tangent_lt_softplus (neg_injective.ne different)
      rw [value_sigmoid, value_sigmoid, slope_sigmoid]
      linarith
  | gaussian =>
      have apart := sq_pos_of_ne_zero (sub_ne_zero.mpr different)
      change -0.5 * y * y < -0.5 * x * x + -x * (y - x)
      linarith

theorem value_le_tangent (x y : ℝ) :
    shape.value Link.logistic y ≤
      shape.value Link.logistic x + shape.slope Link.logistic x * (y - x) := by
  rcases eq_or_ne x y with rfl | different
  · rw [sub_self, mul_zero, add_zero]
  · exact (shape.value_lt_tangent different).le

end Shape

namespace Term

variable {ρ : Type} (link : Link ℝ) (term : Term ρ ℝ) (x : ℝ)

theorem value_scales : term.value link x = term.weight * term.shape.value link x := by
  obtain ⟨combo, offset, weight, shape⟩ := term
  cases shape with
  | sigmoid =>
      change -weight * link.softplus (-x) = weight * -link.softplus (-x)
      ring
  | gaussian =>
      change -0.5 * weight * x * x = weight * (-0.5 * x * x)
      ring

theorem slope_scales : term.slope link x = term.weight * term.shape.slope link x := by
  obtain ⟨combo, offset, weight, shape⟩ := term
  cases shape with
  | sigmoid => rfl
  | gaussian =>
      change -weight * x = weight * -x
      ring

theorem curvature_scales : term.curvature link x = term.weight * term.shape.curvature link x := by
  obtain ⟨combo, offset, weight, shape⟩ := term
  cases shape with
  | sigmoid =>
      change -weight * link.sigmoid x * (1 - link.sigmoid x) =
        weight * (-link.sigmoid x * (1 - link.sigmoid x))
      ring
  | gaussian =>
      change -weight = weight * -1
      ring

section Sigmoid

variable (combo : List (ρ × ℝ)) (offset weight : ℝ)

theorem value_sigmoid : Term.value (Link.logistic : Link ℝ) ⟨combo, offset, weight, .sigmoid⟩ x =
    -weight * softplus (-x) := by
  rw [value_scales, Shape.value_sigmoid, neg_mul_comm]

theorem slope_sigmoid : Term.slope (Link.logistic : Link ℝ) ⟨combo, offset, weight, .sigmoid⟩ x =
    weight * Real.sigmoid (-x) := by
  rw [slope_scales, Shape.slope_sigmoid]

theorem curvature_sigmoid :
    -Term.curvature (Link.logistic : Link ℝ) ⟨combo, offset, weight, .sigmoid⟩ x =
      weight * bend x := by
  rw [curvature_scales, Shape.curvature_sigmoid, mul_neg, neg_neg]

end Sigmoid

theorem value_derivative :
    HasDerivAt (term.value Link.logistic) (term.slope Link.logistic x) x := by
  rw [funext (term.value_scales Link.logistic), slope_scales]
  exact (term.shape.value_derivative x).const_mul term.weight

theorem slope_derivative :
    HasDerivAt (term.slope Link.logistic) (term.curvature Link.logistic x) x := by
  rw [funext (term.slope_scales Link.logistic), curvature_scales]
  exact (term.shape.slope_derivative x).const_mul term.weight

variable {term} {x}

theorem value_le_tangent (nonneg : 0 ≤ term.weight) (x change : ℝ) :
    term.value Link.logistic (x + change) ≤
      term.value Link.logistic x + term.slope Link.logistic x * change := by
  have tangent := mul_le_mul_of_nonneg_left (term.shape.value_le_tangent x (x + change)) nonneg
  rw [add_sub_cancel_left] at tangent
  rw [value_scales, value_scales, slope_scales]
  linarith

end Term

end KifuRatings
