import KifuRatings.Proofs.Rating.Ascent
import KifuRatings.Proofs.Rating.Groups

/-!
# Priors far away

A climb starts from zero. If the prior is far from there, draws against it hardly bend, and groups
that never met are held against each other by nothing else. Then the pivots of the first system are
next to nothing beside the weight of the mean, and it is refused although the log posterior has its
maximum.
-/

namespace KifuRatings

open Logistic Matrix

namespace ScoreMatrix

variable {table : Crosstable} (prior : ℝ) {draws : ℝ} (drawn : 0 < draws)

include drawn

/-- Nothing but the draws holds groups that never met against each other. -/
theorem mul_parting {direction : Fin (ofTable table).size → ℝ} (parts : Parts table direction)
    (strengths : Vector ℝ (ofTable table).size) (row : Fin (ofTable table).size) :
    ((((ofTable table).posterior prior draws).precision Link.logistic strengths).toMatrix *ᵥ
      direction) row = draws * bend (strengths.get row - strengthOf prior) * direction row := by
  have games : ∀ (winner loser : Fin (ofTable table).size) (bent difference : ℝ),
      (ofTable table).won winner loser *
        (bent * (difference * (direction winner - direction loser))) = 0 := by
    intro winner loser bent difference
    rcases (won_nonneg (ofTable table) winner loser).eq_or_lt with nothing | won
    · rw [← nothing, zero_mul]
    · rw [parts.met winner loser won, sub_self, mul_zero, mul_zero, mul_zero]
  have form := dot_precision_of_table table prior drawn.le strengths (Pi.single row 1) direction
  rw [single_one_dotProduct] at form
  simp only [form, games, parts.mean, zero_div, mul_zero, Finset.sum_const_zero, zero_add, add_zero,
    Pi.single_apply, ite_mul, one_mul, zero_mul, mul_ite, Finset.sum_ite_eq', Finset.mem_univ,
    if_true]

theorem refused_of_faint (somebody : 0 < (ofTable table).size)
    (apart : ¬table.meetingGraph.Connected) (faint : Faint table prior draws) :
    Fit.newtonStep Link.logistic ((ofTable table).posterior prior draws)
      (Fit.startPosition Link.logistic ((ofTable table).posterior prior draws)).strengths =
        none := by
  obtain ⟨direction, parts⟩ := exists_parting somebody apart
  let last : Fin (ofTable table).size := ⟨(ofTable table).size - 1, Nat.sub_one_lt somebody.ne'⟩
  have isLast : last.val + 1 = (ofTable table).size := Nat.sub_add_cancel somebody
  have flat : (((ofTable table).posterior prior draws).precision Link.logistic
      (Fit.startPosition Link.logistic ((ofTable table).posterior prior draws)).strengths).Flat
        (draws * bend (strengthOf prior) * (ofTable table).size) direction := by
    intro row
    have weight : 0 ≤ draws * bend (strengthOf prior) := mul_nonneg drawn.le (bend_pos _).le
    rw [mul_parting prior drawn parts, Fit.start_strengths_get, zero_sub, bend_neg, abs_mul,
      abs_of_nonneg weight]
    exact mul_le_mul_of_nonneg_left (parts.short row) weight
  apply Grid.solve_refused isLast (parts.long last) flat
  · apply faint.trans
    exact mul_le_mul_of_nonneg_left (precision_largest_ge table prior drawn.le _ somebody)
      Grid.tolerance_pos.le

end ScoreMatrix

namespace Crosstable

open ScoreMatrix

variable {table : Crosstable}

theorem faint_draws_are_refused (somebody : table.players ≠ [])
    (apart : ¬table.meetingGraph.Connected) (prior : ℝ) {draws : ℝ} (drawn : 0 < draws)
    (faint : Faint table prior draws) {settings : FitSettings ℝ}
    (some : 0 < settings.maxIterations) :
    table.rate Link.logistic settings prior draws = .error .singularSystem := by
  rw [rate_of_somebody somebody]
  exact Fit.ratings_of_singular some
    (refused_of_faint prior drawn (List.length_pos_iff.mpr somebody) apart faint)

/-- What draws against the prior do for the ratings of a table. The log posterior has one maximum,
and a finite one. The search for it fails but for want of steps only where the draws of a player
bend next to nothing beside the largest entry of the precision; not at the start, if they bend
enough there, and nowhere if they outweigh all games. But the draws of groups that never met may
bend too little for the very first system. -/
theorem draws_against_the_prior (table : Crosstable) (somebody : table.players ≠ []) (prior : ℝ)
    {draws : ℝ} (drawn : 0 < draws) :
    (∃! strengths : Vector ℝ (ofTable table).size, ∀ other : Vector ℝ (ofTable table).size,
      ((ofTable table).posterior prior draws).value Link.logistic other ≤
        ((ofTable table).posterior prior draws).value Link.logistic strengths) ∧
    (∀ settings cause, table.rate Link.logistic settings prior draws = .error cause →
      cause = .notConverged settings.maxIterations ∨
        ∃ last, Fit.Visits Link.logistic ((ofTable table).posterior prior draws)
            (Fit.startPosition Link.logistic ((ofTable table).posterior prior draws)) last ∧
          ∃ player, draws * bend (last.strengths.get player - strengthOf prior) ≤
            neglectedWeight table draws) ∧
    (neglectedWeight table draws < draws * bend (strengthOf prior) →
      Fit.newtonStep Link.logistic ((ofTable table).posterior prior draws)
        (Fit.startPosition Link.logistic ((ofTable table).posterior prior draws)).strengths ≠
          none) ∧
    (Tame table prior draws → ∀ settings cause,
      table.rate Link.logistic settings prior draws = .error cause →
        cause = .notConverged settings.maxIterations) ∧
    (¬table.meetingGraph.Connected → Faint table prior draws → ∀ settings : FitSettings ℝ,
      0 < settings.maxIterations →
        table.rate Link.logistic settings prior draws = .error .singularSystem) := by
  have listed : 0 < (ofTable table).size := List.length_pos_iff.mpr somebody
  refine ⟨exists_unique_maximum table prior drawn listed, ?_, ?_, ?_, ?_⟩
  · intro settings cause refused
    rw [rate_of_somebody somebody] at refused
    exact faint_of_refused table prior drawn listed refused
  · intro bent
    apply (accepted_of_bent table prior drawn listed _).1
    intro player
    rw [Fit.start_strengths_get, zero_sub, bend_neg]
    exact bent
  · intro tame settings cause refused
    rw [rate_of_somebody somebody] at refused
    exact never_refused_of_tame table prior drawn listed tame refused
  · intro apart faint settings some
    exact faint_draws_are_refused somebody apart prior drawn faint some

theorem two_pairs_tame : Tame twoPairs 0 1 := by
  have level : startLevel twoPairs 0 1 = -(8 * Real.log 2) := by
    have four : Real.log 4 = 2 * Real.log 2 := by
      rw [← draw_loss_zero, drawLoss, neg_zero, softplus_zero, two_mul]
    rw [start_level_eq, two_pairs_won, two_pairs_size, strength_of_zero, draw_loss_zero, four]
    norm_num
    ring
  have held : hold twoPairs 0 1 = 1 / 1024 := by
    have exponent : 2 * -(8 * Real.log 2) / 1 = -((16 : ℕ) * Real.log 2) := by
      push_cast
      ring
    rw [hold, level, two_pairs_size, exponent, Real.exp_neg, Real.exp_nat_mul,
      Real.exp_log two_pos]
    norm_num
  constructor
  · rw [slack, held, two_pairs_won, two_pairs_size]
    norm_num
  · rw [neglectedWeight, entryBound, held, two_pairs_won, two_pairs_size]
    change _ * ((1e-12 : ℝ) * _) < _
    norm_num

theorem two_pairs_are_never_refused :
    twoPairs.players ≠ [] ∧ (0 : ℝ) < 1 ∧ Tame twoPairs 0 1 ∧
    ∀ (settings : FitSettings ℝ) cause,
      twoPairs.rate Link.logistic settings 0 1 = .error cause →
        cause = .notConverged settings.maxIterations := by
  have somebody : twoPairs.players ≠ [] := by decide +kernel
  exact ⟨somebody, one_pos, two_pairs_tame,
    (draws_against_the_prior twoPairs somebody 0 one_pos).2.2.2.1 two_pairs_tame⟩

theorem two_pairs_faint : Faint twoPairs 5000 1 := by
  have far : 25 ≤ |strengthOf 5000| := by
    change 25 ≤ |(5000 : ℝ) / (400.0 / 2.302585092994046)|
    norm_num
  have bent : bend (strengthOf 5000) ≤ 1 / 5.2e10 := by
    calc
      bend (strengthOf 5000) ≤ Real.exp (-25) :=
        (bend_le_exp _).trans (Real.exp_le_exp.mpr (neg_le_neg far))
      _ = 1 / Real.exp 25 := by rw [Real.exp_neg, one_div]
      _ ≤ 1 / 5.2e10 := one_div_le_one_div_of_le (by norm_num) exp_twenty_five_ge
  rw [Faint, two_pairs_size]
  change _ ≤ (1e-12 : ℝ) * _
  norm_num at bent ⊢
  linarith

/-- A posterior that has its only maximum, but is called singular. -/
theorem distant_pairs_are_refused :
    twoPairs.players ≠ [] ∧ (0 : ℝ) < 1 ∧
    (∃! strengths : Vector ℝ (ofTable twoPairs).size, ∀ other : Vector ℝ (ofTable twoPairs).size,
      ((ofTable twoPairs).posterior 5000 1).value Link.logistic other ≤
        ((ofTable twoPairs).posterior 5000 1).value Link.logistic strengths) ∧
    twoPairs.rate (Link.logistic : Link ℝ) Fit.defaultSettings 5000 1 = .error .singularSystem := by
  have somebody : twoPairs.players ≠ [] := by decide +kernel
  exact ⟨somebody, one_pos,
    exists_unique_maximum twoPairs 5000 one_pos (List.length_pos_iff.mpr somebody),
    faint_draws_are_refused somebody two_pairs_apart.2 5000 one_pos two_pairs_faint
      (Nat.zero_lt_succ 199)⟩

end Crosstable

end KifuRatings
