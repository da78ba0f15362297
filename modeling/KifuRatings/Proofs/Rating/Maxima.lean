import KifuRatings.Proofs.Rating.Curves
import KifuRatings.Proofs.Rating.Derivatives

/-!
# Where a log posterior is highest

If no weight is negative, the log posterior is concave, and strictly so along every direction in
which the combination of a term with a weight changes. So all places where it is highest agree on
these combinations and have one precision; if this lets no direction vanish, there is one such
place.
-/

namespace KifuRatings

open Matrix

variable {size : Nat}

namespace Term

variable {ρ : Type} {term : Term ρ ℝ}

theorem value_middle_lt (weighted : 0 < term.weight) {x y : ℝ} (different : x ≠ y) :
    term.value Link.logistic x + term.value Link.logistic y <
      2 * term.value Link.logistic ((x + y) / 2) := by
  have fromMiddle : (x + y) / 2 ≠ x := by
    intro same
    exact different (by linarith)
  have left := mul_lt_mul_of_pos_left (term.shape.value_lt_tangent fromMiddle) weighted
  have right := mul_le_mul_of_nonneg_left (term.shape.value_le_tangent ((x + y) / 2) y) weighted.le
  rw [value_scales, value_scales, value_scales]
  linarith

theorem value_middle_le (nonneg : 0 ≤ term.weight) (x y : ℝ) :
    term.value Link.logistic x + term.value Link.logistic y ≤
      2 * term.value Link.logistic ((x + y) / 2) := by
  have left := mul_le_mul_of_nonneg_left (term.shape.value_le_tangent ((x + y) / 2) x) nonneg
  have right := mul_le_mul_of_nonneg_left (term.shape.value_le_tangent ((x + y) / 2) y) nonneg
  rw [value_scales, value_scales, value_scales]
  linarith

end Term

namespace Posterior

def Highest (posterior : Posterior ℝ size) (link : Link ℝ) (strengths : Vector ℝ size) : Prop :=
  ∀ other, posterior.value link other ≤ posterior.value link strengths

theorem combination_sub (left right : Vector ℝ size) (term : Term (Fin size) ℝ) :
    combination left term - combination right term = term.along (left.get - right.get) := by
  rw [combination_eq, combination_eq, add_sub_add_right_eq_sub]
  simp only [Term.along_eq_dot, dotProduct_sub]

variable {posterior : Posterior ℝ size} (weighted : ∀ term ∈ posterior.terms, 0 ≤ term.weight)

include weighted

theorem value_le_plane (strengths other : Vector ℝ size) :
    posterior.value Link.logistic other ≤ posterior.value Link.logistic strengths +
      (other.get - strengths.get) ⬝ᵥ (posterior.gradient Link.logistic strengths).get := by
  rw [value_eq, value_eq, dot_gradient, ← List.sum_map_add]
  apply List.sum_le_sum
  intro term member
  have tangent := Term.value_le_tangent (weighted term member) (combination strengths term)
    (combination other term - combination strengths term)
  rwa [add_sub_cancel, combination_sub] at tangent

theorem highest_of_still {strengths : Vector ℝ size}
    (still : (posterior.gradient Link.logistic strengths).get = 0) :
    posterior.Highest Link.logistic strengths := by
  intro other
  have plane := value_le_plane weighted strengths other
  rwa [still, dotProduct_zero, add_zero] at plane

/-! ## Two highest places -/

variable {left right : Vector ℝ size} (leftHighest : posterior.Highest Link.logistic left)
  (rightHighest : posterior.Highest Link.logistic right)

omit weighted in
theorem combination_middle (left right : Vector ℝ size) (term : Term (Fin size) ℝ) :
    combination (Vector.ofFn fun player => (left.get player + right.get player) / 2) term =
      (combination left term + combination right term) / 2 := by
  have middle : (Vector.ofFn fun player => (left.get player + right.get player) / 2).get =
      (2⁻¹ : ℝ) • (left.get + right.get) := by
    funext player
    rw [get_of_fn, div_eq_inv_mul]
    rfl
  simp only [combination_eq, middle, Term.along_eq_dot, dotProduct_smul, dotProduct_add,
    smul_eq_mul]
  ring

include leftHighest rightHighest

theorem combination_of_highest {term : Term (Fin size) ℝ} (member : term ∈ posterior.terms)
    (some : term.weight ≠ 0) : combination left term = combination right term := by
  by_contra different
  let middle : Vector ℝ size := Vector.ofFn fun player => (left.get player + right.get player) / 2
  have above : posterior.value Link.logistic left + posterior.value Link.logistic right <
      2 * posterior.value Link.logistic middle := by
    simp only [value_eq, ← List.sum_map_add, ← List.sum_map_mul_left, middle, combination_middle]
    apply List.sum_lt_sum
    · intro other listed
      exact Term.value_middle_le (weighted other listed) _ _
    · exact ⟨term, member,
        Term.value_middle_lt ((weighted term member).lt_of_ne' some) different⟩
  linarith [leftHighest middle, rightHighest middle]

theorem curvature_of_highest {term : Term (Fin size) ℝ} (member : term ∈ posterior.terms) :
    term.curvature Link.logistic (combination left term) =
      term.curvature Link.logistic (combination right term) := by
  rcases eq_or_ne term.weight 0 with weightless | some
  · rw [Term.curvature_scales, Term.curvature_scales, weightless, zero_mul, zero_mul]
  · rw [combination_of_highest weighted leftHighest rightHighest member some]

theorem precision_of_highest :
    posterior.precision Link.logistic left = posterior.precision Link.logistic right := by
  apply vector_ext
  intro row
  apply vector_ext
  intro column
  change Grid.entry _ row column = Grid.entry _ row column
  rw [precision_entry, precision_entry]
  apply sum_map_congr
  intro term member
  rw [curvature_of_highest weighted leftHighest rightHighest member]

theorem precision_mul_of_highest :
    (posterior.precision Link.logistic left).toMatrix *ᵥ (left.get - right.get) = 0 := by
  funext row
  rw [precision_mul]
  apply List.sum_eq_zero
  intro share listed
  obtain ⟨term, member, rfl⟩ := List.mem_map.mp listed
  rcases eq_or_ne term.weight 0 with weightless | some
  · rw [Term.curvature_scales, weightless, zero_mul, neg_zero, zero_mul, zero_mul]
  · have same := combination_of_highest weighted leftHighest rightHighest member some
    rw [← combination_sub, sub_eq_zero.mpr same, mul_zero, zero_mul]

theorem highest_unique {covariance : Grid ℝ size}
    (inverted : (posterior.precision Link.logistic left).inverse = .some covariance) :
    left = right := by
  apply vector_ext
  intro player
  have column :=
    (Grid.inverse_unique inverted player fun row => covariance.entry row player).mpr rfl
  have still := precision_mul_of_highest weighted leftHighest rightHighest
  have moved := (Grid.inverse_unique inverted player
    ((fun row => covariance.entry row player) + (left.get - right.get))).mp (by
      rw [mulVec_add, column, still, add_zero])
  have apart := congrFun moved player
  rw [Pi.add_apply, Pi.sub_apply, add_eq_left] at apart
  exact sub_eq_zero.mp apart

end Posterior

end KifuRatings
