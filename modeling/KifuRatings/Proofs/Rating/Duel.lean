import KifuRatings.Proofs.Rating.Logistic

/-!
# The record of two players

What one player won and lost against another pulls the difference of their strengths to the one
place that explains the record; against an opponent who never won there is none. Newton's method for
this difference alone starts at zero. On its way it stays between zero and that place, since the
logistic curve lies below its tangents there, and every step leads up. Against an opponent who won
as well, the record bends at every place on the way; against one who never won, the difference grows
by at least one unit with every step.
-/

namespace KifuRatings.Logistic

theorem sigmoid_le_tangent {x y : ℝ} (nonneg : 0 ≤ x) (ahead : x ≤ y) :
    Real.sigmoid y ≤ Real.sigmoid x + bend x * (y - x) := by
  have slope : ∀ z ∈ interior (Set.Ici x), deriv Real.sigmoid z ≤ bend x := by
    intro z inside
    have above : x ≤ z := interior_subset inside
    rw [Real.deriv_sigmoid]
    apply bend_le_bend
    rwa [abs_of_nonneg nonneg, abs_of_nonneg (nonneg.trans above)]
  have mean := (convex_Ici x).image_sub_le_mul_sub_of_deriv_le
    continuous_sigmoid.continuousOn differentiable_sigmoid.differentiableOn slope x
    Set.self_mem_Ici y ahead ahead
  linarith

/-- The slope of a record: what it pulls a difference up by. -/
noncomputable def pull (won lost x : ℝ) : ℝ := won * Real.sigmoid (-x) - lost * Real.sigmoid x

noncomputable def recordLoss (won lost x : ℝ) : ℝ := won * softplus (-x) + lost * softplus x

theorem pull_eq (won lost x : ℝ) : pull won lost x = won - (won + lost) * Real.sigmoid x := by
  rw [pull, Real.sigmoid_neg]
  ring

theorem record_loss_neg (won lost x : ℝ) : recordLoss won lost (-x) = recordLoss lost won x := by
  rw [recordLoss, recordLoss, neg_neg, add_comm]

/-- A difference on the way from zero to the place that explains the record. -/
structure Leads (won lost x : ℝ) : Prop where
  nonneg : 0 ≤ x
  pulled : 0 ≤ pull won lost x

variable {won lost x change : ℝ}

theorem leads_at_zero (better : lost ≤ won) : Leads won lost 0 := by
  refine ⟨le_refl 0, ?_⟩
  rw [pull, neg_zero, ← sub_mul]
  exact mul_nonneg (sub_nonneg.mpr better) (Real.sigmoid_nonneg 0)

/-- The record holds the difference where the opponent won as well. -/
theorem bend_of_leads (lostNonneg : 0 ≤ lost) (leads : Leads won lost x) :
    lost / 2 ≤ (won + lost) * bend x := by
  have half : 1 / 2 ≤ Real.sigmoid x := by
    have least := Real.sigmoid_monotone leads.nonneg
    rw [Real.sigmoid_zero] at least
    linarith
  have rest : lost ≤ (won + lost) * (1 - Real.sigmoid x) := by
    have pulled := leads.pulled
    rw [pull_eq] at pulled
    linarith
  have product := mul_le_mul rest half (by norm_num) (lostNonneg.trans rest)
  rw [bend]
  linarith

section Step

variable (wonSome : 0 < won) (lostNonneg : 0 ≤ lost) (leads : Leads won lost x)
  (newton : (won + lost) * bend x * change = pull won lost x)

include wonSome lostNonneg leads newton

theorem change_nonneg : 0 ≤ change := by
  have weight : 0 < (won + lost) * bend x := mul_pos (by linarith) (bend_pos x)
  exact nonneg_of_mul_nonneg_right (newton ▸ leads.pulled) weight

theorem leads_of_step : Leads won lost (x + change) := by
  have forward := change_nonneg wonSome lostNonneg leads newton
  refine ⟨add_nonneg leads.nonneg forward, ?_⟩
  have below := mul_le_mul_of_nonneg_left
    (sigmoid_le_tangent leads.nonneg (le_add_of_nonneg_right forward))
    (by linarith : 0 ≤ won + lost)
  rw [pull_eq] at newton
  rw [pull_eq]
  linarith

/-- A step costs nothing: at its end the record still pulls forward. -/
theorem record_loss_of_step : recordLoss won lost (x + change) ≤ recordLoss won lost x := by
  have forward := change_nonneg wonSome lostNonneg leads newton
  have pulled := (leads_of_step wonSome lostNonneg leads newton).pulled
  have win := mul_le_mul_of_nonneg_left (tangent_le_softplus (-(x + change)) (-x)) wonSome.le
  have loss := mul_le_mul_of_nonneg_left (tangent_le_softplus (x + change) x) lostNonneg
  have gain := mul_nonneg pulled forward
  rw [pull] at gain
  rw [recordLoss, recordLoss]
  linarith

omit lostNonneg in
/-- Nobody who won every game is caught up with. -/
theorem one_le_change (unbeaten : lost = 0) : 1 ≤ change := by
  have positive := Real.sigmoid_pos x
  have rest : 0 < 1 - Real.sigmoid x := sub_pos.mpr (Real.sigmoid_lt_one x)
  have forward := change_nonneg wonSome unbeaten.ge leads newton
  have product : Real.sigmoid x * change = 1 := by
    rw [pull_eq, unbeaten, add_zero, bend] at newton
    have scaled : won * (1 - Real.sigmoid x) * (Real.sigmoid x * change) =
        won * (1 - Real.sigmoid x) * 1 := by linarith
    exact mul_left_cancel₀ (mul_pos wonSome rest).ne' scaled
  calc
    1 = Real.sigmoid x * change := product.symm
    _ ≤ change := mul_le_of_le_one_left forward (Real.sigmoid_le_one x)

end Step

end KifuRatings.Logistic
