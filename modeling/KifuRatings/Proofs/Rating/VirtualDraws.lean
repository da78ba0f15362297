import KifuRatings.Proofs.Rating.Climb
import KifuRatings.Proofs.Rating.Definite
import KifuRatings.Proofs.Rating.Maxima
import KifuRatings.Proofs.Rating.Measures

/-!
# Draws against the prior

With draws against an opponent of the prior strength, the log posterior falls in every direction,
and it is strictly concave: it has one maximum, and a finite one. Its precision counts every player
with at least the bend of the draws at this player's strength. So no system is singular; one is refused
only where this bend is next to nothing beside the largest entry of the precision.
-/

namespace KifuRatings

open Logistic Matrix

@[simp]
theorem strength_of_zero : strengthOf 0 = 0 := zero_div _

namespace ScoreMatrix

variable (table : Crosstable) (prior draws : ℝ)

/-- Cells without a game need no exception in a sum that gives them nothing. -/
theorem sum_won {value : Term (Fin (ofTable table).size) ℝ → ℝ}
    (nothing : ∀ winner loser, value (Term.wins winner loser 0) = 0) :
    (∑ winner, ∑ loser, if 0 < (ofTable table).won winner loser then
        value (Term.wins winner loser ((ofTable table).won winner loser)) else 0) =
      ∑ winner, ∑ loser, value (Term.wins winner loser ((ofTable table).won winner loser)) := by
  apply Finset.sum_congr rfl
  intro winner _
  apply Finset.sum_congr rfl
  intro loser _
  split
  · rfl
  · rename_i notWon
    rw [le_antisymm (not_lt.mp notWon) (won_nonneg _ winner loser), nothing]

theorem sum_with_draws (nonneg : 0 ≤ draws) {value : Term (Fin (ofTable table).size) ℝ → ℝ}
    (nothing : ∀ combo offset, value ⟨combo, offset, 0, .sigmoid⟩ = 0) :
    (((ofTable table).posterior prior draws).terms.map value).sum =
      (∑ winner, ∑ loser, value (Term.wins winner loser ((ofTable table).won winner loser)))
      + (∑ player, (value ⟨[(player, 1)], -strengthOf prior, 0.5 * draws, .sigmoid⟩
          + value ⟨[(player, -1)], strengthOf prior, 0.5 * draws, .sigmoid⟩))
      + value (Term.center (List.finRange (ofTable table).size) prior) := by
  rw [sum_terms, sum_won table fun _ _ => nothing _ _]
  congr 2
  rcases nonneg.eq_or_lt with rfl | drawn
  · simp only [lt_irrefl, if_false, mul_zero, nothing, add_zero, Finset.sum_const_zero]
  · rw [if_pos drawn]
    apply Finset.sum_congr rfl
    intro player _
    rw [Term.anchored_eq player drawn, List.map_cons, List.map_singleton, List.sum_pair]
    rfl

section Combinations

variable {size : Nat} (strengths : Vector ℝ size)

@[simp]
theorem combination_wins (winner loser : Fin size) (weight : ℝ) :
    Posterior.combination strengths (Term.wins winner loser weight) =
      strengths.get winner - strengths.get loser := by
  rw [Posterior.combination_eq, Term.along_wins]
  exact add_zero _

@[simp]
theorem combination_single (player : Fin size) (sign offset weight : ℝ) (shape : Shape) :
    Posterior.combination strengths ⟨[(player, sign)], offset, weight, shape⟩ =
      sign * strengths.get player + offset := by
  rw [Posterior.combination_eq, Term.along_single]

@[simp]
theorem combination_center (prior : ℝ) :
    Posterior.combination strengths (Term.center (List.finRange size) prior) =
      meanAbove prior strengths.get := by
  rw [Posterior.combination_eq, Term.along_center, meanAbove, strengthOf, sub_eq_add_neg, ← neg_div]
  rfl

end Combinations

section Center

variable {size : Nat} (x : ℝ)

theorem value_center (players : List (Fin size)) (elo : ℝ) :
    Term.value (Link.logistic : Link ℝ) (Term.center players elo) x = -5000 * x ^ 2 := by
  have product : Term.value (Link.logistic : Link ℝ) (Term.center players elo) x =
      -0.5 * 1e4 * x * x := rfl
  rw [product]
  ring

theorem curvature_center (players : List (Fin size)) (elo : ℝ) :
    -Term.curvature (Link.logistic : Link ℝ) (Term.center players elo) x = 10000 := by
  have weight :
      -Term.curvature (Link.logistic : Link ℝ) (Term.center players elo) x = -(-1e4) := rfl
  rw [weight]
  norm_num

end Center

variable {draws}

section Forms

variable (nonneg : 0 ≤ draws) (strengths : Vector ℝ (ofTable table).size)

include nonneg

theorem value_of_table :
    ((ofTable table).posterior prior draws).value Link.logistic strengths =
      logPosterior table prior draws strengths.get := by
  have games : ∀ (winner loser : Fin (ofTable table).size) (weight : ℝ),
      (Term.wins winner loser weight).value Link.logistic
        (Posterior.combination strengths (Term.wins winner loser weight)) =
        -(weight * softplus (strengths.get loser - strengths.get winner)) := by
    intro winner loser weight
    rw [combination_wins, Term.wins, Term.value_sigmoid, neg_sub, neg_mul]
  have anchors : ∀ player : Fin (ofTable table).size,
      Term.value Link.logistic ⟨[(player, 1)], -strengthOf prior, 0.5 * draws, .sigmoid⟩
        (1 * strengths.get player + -strengthOf prior) +
      Term.value Link.logistic ⟨[(player, -1)], strengthOf prior, 0.5 * draws, .sigmoid⟩
        (-1 * strengths.get player + strengthOf prior) =
        -(draws / 2 * drawLoss (strengths.get player - strengthOf prior)) := by
    intro player
    have above : -(1 * strengths.get player + -strengthOf prior) =
        -(strengths.get player - strengthOf prior) := by ring
    have below : -(-1 * strengths.get player + strengthOf prior) =
        strengths.get player - strengthOf prior := by ring
    rw [Term.value_sigmoid, Term.value_sigmoid, above, below, drawLoss]
    ring
  rw [Posterior.value_eq, sum_with_draws table prior draws nonneg]
  · simp only [games, combination_single, anchors, combination_center, value_center, logPosterior,
      Finset.mul_sum, Finset.sum_neg_distrib]
    ring
  · intro combo offset
    rw [Term.value_sigmoid, neg_zero, zero_mul]

omit nonneg in
theorem curvature_wins (winner loser : Fin (ofTable table).size) (weight : ℝ) :
    -(Term.wins winner loser weight).curvature Link.logistic
        (Posterior.combination strengths (Term.wins winner loser weight)) =
      weight * bend (strengths.get winner - strengths.get loser) := by
  rw [combination_wins, Term.wins, Term.curvature_sigmoid]

omit nonneg in
theorem bend_below (player : Fin (ofTable table).size) :
    bend (-1 * strengths.get player + strengthOf prior) =
      bend (1 * strengths.get player + -strengthOf prior) := by
  rw [← bend_neg]
  congr 1
  ring

theorem dot_precision_of_table (left right : Fin (ofTable table).size → ℝ) :
    left ⬝ᵥ ((((ofTable table).posterior prior draws).precision Link.logistic
        strengths).toMatrix *ᵥ right) =
      (∑ winner, ∑ loser, (ofTable table).won winner loser *
        (bend (strengths.get winner - strengths.get loser) *
          ((left winner - left loser) * (right winner - right loser))))
      + (∑ player, draws * bend (strengths.get player - strengthOf prior) *
          (left player * right player))
      + 10000 * ((∑ player, left player) / (ofTable table).size *
          ((∑ player, right player) / (ofTable table).size)) := by
  rw [Posterior.dot_precision, sum_with_draws table prior draws nonneg]
  · simp only [curvature_wins, Term.along_wins, combination_single, Term.along_single,
      Term.curvature_sigmoid, bend_below, curvature_center, Term.along_center]
    congr 2
    · simp only [mul_assoc]
    · apply Finset.sum_congr rfl
      intro player _
      rw [one_mul, ← sub_eq_add_neg]
      ring
  · intro combo offset
    rw [Term.curvature_sigmoid, zero_mul, zero_mul]

theorem precision_of_table (direction : Fin (ofTable table).size → ℝ) :
    direction ⬝ᵥ ((((ofTable table).posterior prior draws).precision Link.logistic
        strengths).toMatrix *ᵥ direction) =
      stiffness table prior draws strengths.get direction := by
  rw [dot_precision_of_table table prior nonneg]
  simp only [stiffness, pow_two, Finset.mul_sum, mul_assoc]

/-! ## The precision -/

omit nonneg in
theorem stiffness_ge {least : ℝ} {strengths : Fin (ofTable table).size → ℝ}
    (bent : ∀ player, least ≤ draws * bend (strengths player - strengthOf prior))
    (direction : Fin (ofTable table).size → ℝ) :
    least * ∑ player, direction player ^ 2 ≤ stiffness table prior draws strengths direction := by
  have games : 0 ≤ ∑ winner, ∑ loser, (ofTable table).won winner loser *
      (bend (strengths winner - strengths loser) * (direction winner - direction loser) ^ 2) :=
    Finset.sum_nonneg fun winner _ => Finset.sum_nonneg fun loser _ =>
      mul_nonneg (won_nonneg _ winner loser) (mul_nonneg (bend_pos _).le (sq_nonneg _))
  have mean : 0 ≤ 10000 * ((∑ player, direction player) / (ofTable table).size) ^ 2 := by positivity
  have anchors : least * ∑ player, direction player ^ 2 ≤
      draws * ∑ player, bend (strengths player - strengthOf prior) * direction player ^ 2 := by
    rw [Finset.mul_sum, Finset.mul_sum]
    apply Finset.sum_le_sum
    intro player _
    rw [← mul_assoc]
    exact mul_le_mul_of_nonneg_right (bent player) (sq_nonneg _)
  unfold stiffness
  linarith

theorem precision_steep {least : ℝ} {strengths : Vector ℝ (ofTable table).size}
    (bent : ∀ player, least ≤ draws * bend (strengths.get player - strengthOf prior)) :
    (((ofTable table).posterior prior draws).precision Link.logistic strengths).Steep least := by
  intro direction
  rw [precision_of_table table prior nonneg]
  exact stiffness_ge table prior bent direction

omit nonneg in
theorem abs_one_sub_one_le {size : Nat} (player winner loser : Fin size) :
    |(Pi.single player 1 : _ → ℝ) winner - (Pi.single player 1 : _ → ℝ) loser| ≤ 1 := by
  rw [Pi.single_apply, Pi.single_apply]
  split_ifs <;> norm_num

theorem entry_of_table (row column : Fin (ofTable table).size) :
    (((ofTable table).posterior prior draws).precision Link.logistic strengths).entry row column =
      (∑ winner, ∑ loser, (ofTable table).won winner loser *
        (bend (strengths.get winner - strengths.get loser) *
          (((Pi.single row 1 : _ → ℝ) winner - (Pi.single row 1 : _ → ℝ) loser) *
            ((Pi.single column 1 : _ → ℝ) winner - (Pi.single column 1 : _ → ℝ) loser))))
      + draws * bend (strengths.get row - strengthOf prior) * (Pi.single column 1 : _ → ℝ) row
      + 10000 / (ofTable table).size ^ 2 := by
  have form := dot_precision_of_table table prior nonneg strengths (Pi.single row 1)
    (Pi.single column 1)
  rw [mulVec_single_one, single_one_dotProduct, Finset.sum_pi_single', Finset.sum_pi_single',
    if_pos (Finset.mem_univ row), if_pos (Finset.mem_univ column)] at form
  have anchor : ∑ player, draws * bend (strengths.get player - strengthOf prior) *
      ((Pi.single row 1 : _ → ℝ) player * (Pi.single column 1 : _ → ℝ) player) =
        draws * bend (strengths.get row - strengthOf prior) * (Pi.single column 1 : _ → ℝ) row := by
    simp only [Pi.single_apply row, ite_mul, one_mul, zero_mul, mul_ite, mul_zero,
      Finset.sum_ite_eq', Finset.mem_univ, if_true]
  change Grid.entry _ row column = _ at form
  rw [form, anchor]
  ring

omit nonneg in
theorem games_entry_le (row column : Fin (ofTable table).size) :
    |∑ winner, ∑ loser, (ofTable table).won winner loser *
        (bend (strengths.get winner - strengths.get loser) *
          (((Pi.single row 1 : _ → ℝ) winner - (Pi.single row 1 : _ → ℝ) loser) *
            ((Pi.single column 1 : _ → ℝ) winner - (Pi.single column 1 : _ → ℝ) loser)))| ≤
      totalWon table / 4 := by
  unfold totalWon
  simp only [Finset.sum_div]
  apply (Finset.abs_sum_le_sum_abs _ _).trans
  gcongr with winner _
  apply (Finset.abs_sum_le_sum_abs _ _).trans
  gcongr with loser _
  rw [abs_mul, abs_mul, abs_mul, abs_of_nonneg (won_nonneg _ winner loser), div_eq_mul_one_div]
  apply mul_le_mul_of_nonneg_left _ (won_nonneg _ winner loser)
  have units := mul_le_one₀ (abs_one_sub_one_le row winner loser) (abs_nonneg _)
    (abs_one_sub_one_le column winner loser)
  rw [abs_of_pos (bend_pos _)]
  exact (mul_le_of_le_one_right (bend_pos _).le units).trans (bend_le_quarter _)

omit nonneg in
theorem total_won_nonneg : 0 ≤ totalWon table :=
  Finset.sum_nonneg fun winner _ => Finset.sum_nonneg fun loser _ => won_nonneg _ winner loser

theorem precision_largest :
    (((ofTable table).posterior prior draws).precision Link.logistic strengths).largest ≤
      entryBound table draws := by
  have wonBound := total_won_nonneg table
  have boundNonneg : 0 ≤ entryBound table draws := by
    unfold entryBound
    positivity
  apply Grid.largest_le boundNonneg
  intro row column
  have anchors : |draws * bend (strengths.get row - strengthOf prior) *
      (Pi.single column 1 : _ → ℝ) row| ≤ draws / 4 := by
    have weight : |draws * bend (strengths.get row - strengthOf prior)| ≤ draws / 4 := by
      rw [abs_mul, abs_of_nonneg nonneg, abs_of_pos (bend_pos _), div_eq_mul_one_div]
      exact mul_le_mul_of_nonneg_left (bend_le_quarter _) nonneg
    rw [abs_mul, Pi.single_apply]
    split
    · rwa [abs_one, mul_one]
    · rw [abs_zero, mul_zero]
      positivity
  have mean : |(10000 : ℝ) / (ofTable table).size ^ 2| ≤ 10000 / (ofTable table).size ^ 2 :=
    (abs_of_nonneg (by positivity)).le
  rw [entry_of_table table prior nonneg]
  calc
    _ ≤ totalWon table / 4 + draws / 4 + 10000 / (ofTable table).size ^ 2 :=
      (abs_add_three _ _ _).trans
        (add_le_add_three (games_entry_le table strengths row column) anchors mean)
    _ = entryBound table draws := by
      unfold entryBound
      ring

theorem precision_largest_ge (somebody : 0 < (ofTable table).size) :
    10000 / (ofTable table).size ^ 2 ≤
      (((ofTable table).posterior prior draws).precision Link.logistic strengths).largest := by
  let first : Fin (ofTable table).size := ⟨0, somebody⟩
  have games : 0 ≤ ∑ winner, ∑ loser, (ofTable table).won winner loser *
      (bend (strengths.get winner - strengths.get loser) *
        (((Pi.single first 1 : _ → ℝ) winner - (Pi.single first 1 : _ → ℝ) loser) *
          ((Pi.single first 1 : _ → ℝ) winner - (Pi.single first 1 : _ → ℝ) loser))) :=
    Finset.sum_nonneg fun winner _ => Finset.sum_nonneg fun loser _ =>
      mul_nonneg (won_nonneg _ winner loser) (mul_nonneg (bend_pos _).le (mul_self_nonneg _))
  have anchor : 0 ≤ draws * bend (strengths.get first - strengthOf prior) :=
    mul_nonneg nonneg (bend_pos _).le
  have entry := entry_of_table table prior nonneg strengths first first
  rw [Pi.single_eq_same, mul_one] at entry
  have largest := (le_abs_self _).trans (Grid.entry_le_largest
    (((ofTable table).posterior prior draws).precision Link.logistic strengths) first first)
  linarith

end Forms

variable (drawn : 0 < draws) (strengths : Vector ℝ (ofTable table).size)

include drawn

/-! ## The maximum -/

/-- The draws of any one player bound the log posterior. -/
theorem log_posterior_le (strengths : Fin (ofTable table).size → ℝ)
    (player : Fin (ofTable table).size) :
    logPosterior table prior draws strengths ≤
      -(draws / 2 * (drawLoss (strengths player - strengthOf prior)
        + ((ofTable table).size - 1) * Real.log 4)) := by
  have games : 0 ≤ ∑ winner, ∑ loser, (ofTable table).won winner loser *
      softplus (strengths loser - strengths winner) :=
    Finset.sum_nonneg fun winner _ => Finset.sum_nonneg fun loser _ =>
      mul_nonneg (won_nonneg _ winner loser) (softplus_pos _).le
  have mean : 0 ≤ 5000 * meanAbove prior strengths ^ 2 := by positivity
  have count : ∑ _ ∈ Finset.univ.erase player, Real.log 4 =
      ((ofTable table).size - 1) * Real.log 4 := by
    rw [Finset.sum_const, Finset.card_erase_of_mem (Finset.mem_univ player), Finset.card_univ,
      Fintype.card_fin, nsmul_eq_mul, Nat.cast_sub player.pos, Nat.cast_one]
  have anchors : drawLoss (strengths player - strengthOf prior)
        + ((ofTable table).size - 1) * Real.log 4 ≤
      ∑ other, drawLoss (strengths other - strengthOf prior) := by
    rw [← Finset.add_sum_erase Finset.univ _ (Finset.mem_univ player), ← count]
    gcongr
    exact log_four_le_draw_loss _
  have scaled := mul_le_mul_of_nonneg_left anchors (half_pos drawn).le
  unfold logPosterior
  linarith

theorem log_posterior_le_distance (strengths : Fin (ofTable table).size → ℝ)
    (player : Fin (ofTable table).size) :
    logPosterior table prior draws strengths ≤
      -(draws / 2 * |strengths player - strengthOf prior|) := by
  apply (log_posterior_le table prior drawn strengths player).trans
  apply neg_le_neg
  apply mul_le_mul_of_nonneg_left _ (half_pos drawn).le
  have distance := abs_le_draw_loss (strengths player - strengthOf prior)
  have others : 0 ≤ (((ofTable table).size : ℝ) - 1) * Real.log 4 :=
    mul_nonneg (sub_nonneg.mpr (Nat.one_le_cast.mpr player.pos)) (Real.log_nonneg (by norm_num))
  linarith

omit drawn in
theorem log_posterior_continuous : Continuous (logPosterior table prior draws) := by
  have smooth := softplus_continuous
  unfold logPosterior meanAbove drawLoss
  fun_prop

theorem log_posterior_falls (somebody : 0 < (ofTable table).size) :
    Filter.Tendsto (logPosterior table prior draws) (Filter.cocompact _) Filter.atBot := by
  have someone : Nonempty (Fin (ofTable table).size) := ⟨⟨0, somebody⟩⟩
  have bounded : ∀ strengths : Fin (ofTable table).size → ℝ,
      logPosterior table prior draws strengths ≤
        -(draws / 2 * (‖strengths‖ + -|strengthOf prior|)) := by
    intro strengths
    obtain ⟨player, longest⟩ := Finite.exists_max fun player => ‖strengths player‖
    have norm : ‖strengths‖ ≤ |strengths player| :=
      (pi_norm_le_iff_of_nonempty strengths).mpr longest
    have distance := abs_sub_abs_le_abs_sub (strengths player) (strengthOf prior)
    apply (log_posterior_le_distance table prior drawn strengths player).trans
    apply neg_le_neg
    apply mul_le_mul_of_nonneg_left _ (half_pos drawn).le
    linarith
  apply Filter.tendsto_atBot_mono bounded
  apply Filter.tendsto_neg_atTop_atBot.comp
  apply Filter.Tendsto.const_mul_atTop (half_pos drawn)
  exact Filter.tendsto_atTop_add_const_right _ _ tendsto_norm_cocompact_atTop

theorem exists_unique_maximum (somebody : 0 < (ofTable table).size) :
    ∃! strengths : Vector ℝ (ofTable table).size, ∀ other : Vector ℝ (ofTable table).size,
      ((ofTable table).posterior prior draws).value Link.logistic other ≤
        ((ofTable table).posterior prior draws).value Link.logistic strengths := by
  simp only [value_of_table table prior drawn.le]
  obtain ⟨best, highest⟩ := (log_posterior_continuous table prior).exists_forall_ge
    (log_posterior_falls table prior drawn somebody)
  apply existsUnique_of_exists_of_unique
  · refine ⟨Vector.ofFn best, fun other => ?_⟩
    rw [get_of_fn]
    exact highest other.get
  · intro left right leftHighest rightHighest
    simp only [← value_of_table table prior drawn.le] at leftHighest rightHighest
    apply vector_ext
    intro player
    have anchor : ⟨[(player, 1)], -strengthOf prior, 0.5 * draws, .sigmoid⟩ ∈
        Term.anchored player draws prior := by
      rw [Term.anchored_eq player drawn]
      exact List.mem_cons_self
    have same := Posterior.combination_of_highest (placed_weight_nonneg table prior draws)
      leftHighest rightHighest (mem_terms_of_anchored table prior drawn anchor) (by positivity)
    rw [combination_single, combination_single] at same
    linarith

/-! ## Where systems are refused -/

/-- A bend of this weight or less may be taken for zero beside the largest entry of a precision. -/
noncomputable def neglectedWeight (table : Crosstable) (draws : ℝ) : ℝ :=
  (ofTable table).size * (Elimination.tolerance * entryBound table draws)

theorem accepted_of_bent (somebody : 0 < (ofTable table).size)
    {strengths : Vector ℝ (ofTable table).size}
    (bent : ∀ player, neglectedWeight table draws <
      draws * bend (strengths.get player - strengthOf prior)) :
    Fit.newtonStep Link.logistic ((ofTable table).posterior prior draws) strengths ≠ none ∧
      (((ofTable table).posterior prior draws).precision Link.logistic strengths).inverse ≠
        none := by
  have someone : Nonempty (Fin (ofTable table).size) := ⟨⟨0, somebody⟩⟩
  obtain ⟨player, least⟩ := Finite.exists_min fun player =>
    draws * bend (strengths.get player - strengthOf prior)
  have steep := precision_steep table prior drawn.le least
  have firm : (ofTable table).size *
      (((ofTable table).posterior prior draws).precision Link.logistic strengths).threshold <
        draws * bend (strengths.get player - strengthOf prior) := by
    apply lt_of_le_of_lt _ (bent player)
    apply mul_le_mul_of_nonneg_left _ (Nat.cast_nonneg _)
    exact mul_le_mul_of_nonneg_left (precision_largest table prior drawn.le strengths)
      Grid.tolerance_pos.le
  exact ⟨Grid.solve_of_steep somebody steep firm _, Grid.inverse_of_steep somebody steep firm⟩

/-- Ratings fail only for want of steps, or where the draws of a player bend next to nothing. -/
theorem faint_of_refused (somebody : 0 < (ofTable table).size) {settings : FitSettings ℝ}
    {cause : FitError} (refused : Fit.ratingsOf Link.logistic settings
      ((ofTable table).posterior prior draws) = .error cause) :
    cause = .notConverged settings.maxIterations ∨
      ∃ last, Fit.Visits Link.logistic ((ofTable table).posterior prior draws)
          (Fit.startPosition Link.logistic ((ofTable table).posterior prior draws)) last ∧
        ∃ player, draws * bend (last.strengths.get player - strengthOf prior) ≤
          neglectedWeight table draws := by
  apply (Fit.ratings_of_eq_error refused).imp_right
  intro stopped
  obtain ⟨last, visits, none⟩ := stopped
  refine ⟨last, visits, ?_⟩
  by_contra! bent
  obtain ⟨steps, inverts⟩ := accepted_of_bent table prior drawn somebody bent
  rcases none with noStep | noInverse
  · exact steps noStep
  · exact inverts noInverse

end ScoreMatrix

end KifuRatings
