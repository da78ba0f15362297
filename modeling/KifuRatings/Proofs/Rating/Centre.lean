import KifuRatings.Proofs.Rating.VirtualDraws

/-!
# Ratings around the prior

Without draws against the prior only one term tells anything about the mean strength: games speak
of differences. In the sum of all equations of a Newton step nothing else is left, so the whole
step leads exactly from the mean to the prior, and a part of it removes this part of the distance.
-/

namespace KifuRatings

open Matrix

namespace Grid

variable {size : Nat}

theorem solve_of_empty (empty : size = 0) (matrix : Grid ℝ size) (constants : Vector ℝ size) :
    matrix.solve constants = none := by
  apply Option.map_eq_none_iff.mpr
  rw [solve_sides_eq fun row => by rw [rows_of_constants], if_pos (.inl empty)]

end Grid

namespace ScoreMatrix

variable (table : Crosstable) (prior : ℝ) (link : Link ℝ)

/-- Whether a sum over the terms sees more than differences of strengths is told by the term for the
mean alone. -/
theorem sum_of_differences {value : Term (Fin (ofTable table).size) ℝ → ℝ}
    (blind : ∀ winner loser weight, value (Term.wins winner loser weight) = 0) :
    (((ofTable table).posterior prior 0).terms.map value).sum =
      value (Term.center (List.finRange (ofTable table).size) prior) := by
  rw [sum_terms, if_neg (lt_irrefl 0)]
  simp only [blind, ite_self, Finset.sum_const_zero, zero_add]

theorem mean_of_newton_step {strengths step : Vector ℝ (ofTable table).size}
    (found : Fit.newtonStep link ((ofTable table).posterior prior 0) strengths = some step) :
    (∑ player, step.get player) / (ofTable table).size = -meanAbove prior strengths.get := by
  have somebody : ((ofTable table).size : ℝ) ≠ 0 := by
    intro empty
    have refused := Grid.solve_of_empty (Nat.cast_eq_zero.mp empty)
      (((ofTable table).posterior prior 0).precision link strengths)
      (((ofTable table).posterior prior 0).gradient link strengths)
    rw [Fit.newtonStep, refused] at found
    cases found
  let everybody : Fin (ofTable table).size → ℝ := fun _ => 1
  have all : (∑ player, everybody player) / (ofTable table).size = 1 := by
    simp [everybody, somebody]
  have blind : ∀ winner loser weight, (Term.wins winner loser weight).along everybody = 0 := by
    intro winner loser weight
    rw [Term.along_wins]
    exact sub_self 1
  have solved := congrArg (everybody ⬝ᵥ ·) ((Grid.solve_unique found step.get).mpr rfl)
  rw [Posterior.dot_precision, Posterior.dot_gradient,
    sum_of_differences table prior fun winner loser weight => by
      rw [blind, zero_mul, mul_zero],
    sum_of_differences table prior fun winner loser weight => by
      rw [blind, mul_zero],
    Term.along_center, Term.along_center, combination_center, all] at solved
  have weights : -(-1e4 : ℝ) * (1 * ((∑ player, step.get player) / (ofTable table).size)) =
      -1e4 * meanAbove prior strengths.get * 1 := solved
  linarith

theorem mean_of_whole_step {strengths step : Vector ℝ (ofTable table).size}
    (found : Fit.newtonStep link ((ofTable table).posterior prior 0) strengths = some step) :
    meanAbove prior (Fit.shift strengths step 1).get = 0 := by
  have moved := mean_of_newton_step table prior link found
  simp only [meanAbove, Fit.get_shift, one_mul, Finset.sum_add_distrib, add_div]
  rw [moved, meanAbove]
  ring

theorem mean_of_stride {start : Fit.Position ℝ (ofTable table).size}
    {stride : Fit.Stride ℝ (ofTable table).size}
    (taken : Fit.stride? link ((ofTable table).posterior prior 0) start = some stride) :
    meanAbove prior stride.reached.strengths.get =
      (1 - stride.scale) * meanAbove prior start.strengths.get := by
  have step := mean_of_newton_step table prior link (Fit.stride_eq_some taken).2.1
  have moved : meanAbove prior stride.reached.strengths.get =
      meanAbove prior start.strengths.get +
        stride.scale * ((∑ player, stride.step.get player) / (ofTable table).size) := by
    simp only [meanAbove, Fit.reached_strength taken, Finset.sum_add_distrib, ← Finset.mul_sum]
    ring
  rw [moved, step]
  ring

end ScoreMatrix

namespace RatingList

theorem elo_per_strength_ne : (Term.eloPerStrength : ℝ) ≠ 0 := by
  change (400.0 : ℝ) / 2.302585092994046 ≠ 0
  norm_num

theorem mean_of_strengths {size : Nat} (some : size ≠ 0) (players : Vector String size)
    (strengths : Vector ℝ size) (covariance : Grid ℝ size) :
    (ofStrengths players strengths covariance).mean =
      (∑ player, strengths.get player) / size * Term.eloPerStrength := by
  have elos : (ofStrengths players strengths covariance).entries.toList.map (·.elo) =
      List.ofFn fun player => strengths.get player * Term.eloPerStrength := by
    simp only [ofStrengths, Vector.toList_ofFn, List.map_ofFn]
    rfl
  have total : (ofStrengths players strengths covariance).mean =
      if size = 0 then 0 else
        Scalar.sum ((ofStrengths players strengths covariance).entries.toList.map (·.elo)) /
          (size : ℝ) := rfl
  rw [total, if_neg some, elos, Scalar.sum_exact, List.sum_ofFn, ← Finset.sum_mul]
  ring

end RatingList

end KifuRatings
