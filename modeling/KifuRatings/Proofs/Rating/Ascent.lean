import KifuRatings.Proofs.Rating.VirtualDraws

/-!
# Climbs that do not fall

Along a Newton step the log posterior first rises as fast as the precision makes of the step, and
it leaves this line no faster than a parabola. The shortest step that a line search tries has
`2 ^ -27` of the length. If the draws bend enough beside the parabola, it leads up; so the whole
climb stays above its start. There every player is held by the draws, and no system is refused.
-/

namespace KifuRatings

open Logistic Matrix

namespace Term

variable {size : Nat}

theorem value_drops {term : Term (Fin size) ℝ} (nonneg : 0 ≤ term.weight) (x change : ℝ) :
    term.value Link.logistic x + term.slope Link.logistic x * change - term.drag * change ^ 2 ≤
      term.value Link.logistic (x + change) := by
  obtain ⟨combo, offset, weight, shape⟩ := term
  cases shape with
  | sigmoid =>
      have parabola := mul_le_mul_of_nonneg_left (softplus_le_parabola (-x) (-(x + change))) nonneg
      rw [Term.value_sigmoid, Term.value_sigmoid, Term.slope_sigmoid, drag]
      simp only at parabola ⊢
      linarith
  | gaussian =>
      have exact : Term.value Link.logistic ⟨combo, offset, weight, .gaussian⟩ (x + change) =
          Term.value Link.logistic ⟨combo, offset, weight, .gaussian⟩ x +
            Term.slope Link.logistic ⟨combo, offset, weight, .gaussian⟩ x * change -
            Term.drag ⟨combo, offset, weight, .gaussian⟩ * change ^ 2 := by
        change -0.5 * weight * (x + change) * (x + change) =
          -0.5 * weight * x * x + -weight * x * change - weight / 2 * change ^ 2
        ring
      exact exact.ge

end Term

namespace Fit

variable {size : Nat} {posterior : Posterior ℝ size}

theorem combination_shift (strengths step : Vector ℝ size) (scale : ℝ)
    (term : Term (Fin size) ℝ) :
    Posterior.combination (shift strengths step scale) term =
      Posterior.combination strengths term + scale * term.along step.get := by
  have moved : (shift strengths step scale).get = strengths.get + scale • step.get :=
    funext fun player => get_shift strengths step scale player
  rw [Posterior.combination_eq, Posterior.combination_eq, moved]
  simp only [Term.along_eq_dot, dotProduct_add, dotProduct_smul, smul_eq_mul]
  ring

noncomputable def dragAlong (posterior : Posterior ℝ size) (direction : Fin size → ℝ) : ℝ :=
  (posterior.terms.map fun term => term.drag * term.along direction ^ 2).sum

/-- Along a direction the log posterior leaves its tangent no faster than a parabola. -/
theorem value_shift_ge (nonneg : ∀ term ∈ posterior.terms, 0 ≤ term.weight)
    (strengths step : Vector ℝ size) (scale : ℝ) :
    posterior.value Link.logistic strengths
        + scale * (step.get ⬝ᵥ (posterior.gradient Link.logistic strengths).get)
        - scale ^ 2 * dragAlong posterior step.get ≤
      posterior.value Link.logistic (shift strengths step scale) := by
  rw [Posterior.value_eq, Posterior.value_eq, Posterior.dot_gradient, dragAlong,
    ← List.sum_map_mul_left, ← List.sum_map_mul_left, ← List.sum_map_add, sub_le_iff_le_add,
    ← List.sum_map_add]
  apply List.sum_le_sum
  intro term member
  have drops := Term.value_drops (nonneg term member) (Posterior.combination strengths term)
    (scale * term.along step.get)
  rw [combination_shift]
  linarith

/-- A line search leads up if the parabolas take at most `2 ^ 27` times what the step gains. -/
theorem line_search_ascends_of_drag (nonneg : ∀ term ∈ posterior.terms, 0 ≤ term.weight)
    {start : Position ℝ size} (looked : start = position Link.logistic posterior start.strengths)
    {step : Vector ℝ size}
    (held : dragAlong posterior step.get ≤
      2 ^ 27 * (step.get ⬝ᵥ (posterior.gradient Link.logistic start.strengths).get)) :
    start.value ≤ (lineSearch Link.logistic posterior start step maxHalvings 1).2.value := by
  apply line_search_ascends
  let gain := step.get ⬝ᵥ (posterior.gradient Link.logistic start.strengths).get
  let scale : ℝ := 1 * 0.5 ^ maxHalvings
  have short : scale = (2 ^ 27)⁻¹ := by norm_num [scale, maxHalvings]
  have drops := value_shift_ge nonneg start.strengths step scale
  have loss := mul_le_mul_of_nonneg_left held (sq_nonneg scale)
  have balance : scale ^ 2 * (2 ^ 27 * gain) = scale * gain := by
    rw [short]
    ring
  rw [value_of_position looked]
  change _ ≤ posterior.value Link.logistic (shift start.strengths step scale)
  linarith

theorem line_search_ascends_of_steep (nonneg : ∀ term ∈ posterior.terms, 0 ≤ term.weight)
    {start : Position ℝ size} (looked : start = position Link.logistic posterior start.strengths)
    {step : Vector ℝ size} (found : newtonStep Link.logistic posterior start.strengths = some step)
    {least : ℝ} (steep : (posterior.precision Link.logistic start.strengths).Steep least)
    (held : dragAlong posterior step.get ≤ 2 ^ 27 * (least * ∑ player, step.get player ^ 2)) :
    start.value ≤ (lineSearch Link.logistic posterior start step maxHalvings 1).2.value := by
  apply line_search_ascends_of_drag nonneg looked
  rw [← (Grid.solve_unique found step.get).mpr rfl]
  exact held.trans (mul_le_mul_of_nonneg_left (steep step.get) (by positivity))

end Fit

namespace ScoreMatrix

variable (table : Crosstable) (prior : ℝ) {draws : ℝ} (drawn : 0 < draws)

include drawn

theorem drag_along_le (direction : Fin (ofTable table).size → ℝ) :
    Fit.dragAlong ((ofTable table).posterior prior draws) direction ≤
      slack table draws * ∑ player, direction player ^ 2 := by
  let length := ∑ player, direction player ^ 2
  have one : ∀ player, direction player ^ 2 ≤ length := fun player =>
    Finset.single_le_sum (fun other _ => sq_nonneg (direction other)) (Finset.mem_univ player)
  have apart : ∀ winner loser, (direction winner - direction loser) ^ 2 ≤ 4 * length := by
    intro winner loser
    have opposite := sq_nonneg (direction winner + direction loser)
    linarith [one winner, one loser]
  have games : ∑ winner, ∑ loser, (Term.wins winner loser ((ofTable table).won winner loser)).drag *
      (direction winner - direction loser) ^ 2 ≤ totalWon table * length := by
    unfold totalWon
    simp only [Finset.sum_mul]
    apply Finset.sum_le_sum
    intro winner _
    apply Finset.sum_le_sum
    intro loser _
    have quarter : (Term.wins winner loser ((ofTable table).won winner loser)).drag =
        (ofTable table).won winner loser / 4 := rfl
    have scaled := mul_le_mul_of_nonneg_left (apart winner loser) (won_nonneg _ winner loser)
    rw [quarter]
    linarith
  have mean : 5000 * ((∑ player, direction player) / (ofTable table).size) ^ 2 ≤
      5000 / (ofTable table).size * length := by
    have squares := sq_sum_le_card_mul_sum_sq (s := Finset.univ) (f := direction)
    rw [Finset.card_univ, Fintype.card_fin] at squares
    calc
      _ = 5000 / (ofTable table).size ^ 2 * (∑ player, direction player) ^ 2 := by ring
      _ ≤ 5000 / (ofTable table).size ^ 2 * ((ofTable table).size * length) :=
        mul_le_mul_of_nonneg_left squares (by positivity)
      _ = 5000 / (ofTable table).size * length := by
        field_simp
  have anchors : ∀ player : Fin (ofTable table).size,
      Term.drag ⟨[(player, 1)], -strengthOf prior, 0.5 * draws, .sigmoid⟩ *
          (1 * direction player) ^ 2 +
        Term.drag ⟨[(player, -1)], strengthOf prior, 0.5 * draws, .sigmoid⟩ *
          (-1 * direction player) ^ 2 = draws / 4 * direction player ^ 2 := by
    intro player
    change 0.5 * draws / 4 * (1 * direction player) ^ 2 +
      0.5 * draws / 4 * (-1 * direction player) ^ 2 = _
    ring
  have center : (Term.center (List.finRange (ofTable table).size) prior).drag = 5000 := by
    change (1e4 : ℝ) / 2 = 5000
    norm_num
  unfold Fit.dragAlong
  rw [sum_with_draws table prior draws drawn.le]
  · simp only [Term.along_wins, Term.along_single, Term.along_center, anchors, center,
      ← Finset.mul_sum]
    unfold slack
    linarith
  · intro combo offset
    change (0 : ℝ) / 4 * _ = 0
    rw [zero_div, zero_mul]

/-! ## Above the start -/

omit drawn in
theorem start_level_eq : startLevel table prior draws =
    -(totalWon table * Real.log 2)
      - draws / 2 * ((ofTable table).size * drawLoss (strengthOf prior))
      - 5000 * strengthOf prior ^ 2 := by
  unfold startLevel logPosterior meanAbove totalWon
  simp only [sub_zero, zero_sub, softplus_zero, draw_loss_neg, Finset.sum_const, Finset.card_univ,
    Fintype.card_fin, nsmul_eq_mul, Finset.sum_mul, mul_zero, zero_div, neg_sq]

theorem hold_le {strengths : Fin (ofTable table).size → ℝ}
    (above : startLevel table prior draws ≤ logPosterior table prior draws strengths)
    (player : Fin (ofTable table).size) :
    hold table prior draws ≤ draws * bend (strengths player - strengthOf prior) := by
  have bounded := above.trans (log_posterior_le table prior drawn strengths player)
  have others : (4 : ℝ) ^ ((ofTable table).size - 1) =
      Real.exp (((ofTable table).size - 1) * Real.log 4) := by
    rw [← Nat.cast_pred player.pos, Real.exp_nat_mul, Real.exp_log (by norm_num)]
  have cost : ((ofTable table).size - 1) * Real.log 4 + 2 * startLevel table prior draws / draws ≤
      -drawLoss (strengths player - strengthOf prior) := by
    have scaled : 2 * startLevel table prior draws / draws ≤
        -(drawLoss (strengths player - strengthOf prior)
          + ((ofTable table).size - 1) * Real.log 4) := by
      rw [div_le_iff₀ drawn]
      linarith
    linarith
  unfold hold
  rw [others, ← Real.exp_add, bend_eq_exp]
  exact mul_le_mul_of_nonneg_left (Real.exp_le_exp.mpr cost) drawn.le

/-- The draws weigh enough for every climb to lead up and for every system to be accepted. -/
structure Tame (table : Crosstable) (prior draws : ℝ) : Prop where
  steady : slack table draws ≤ 2 ^ 27 * hold table prior draws
  firm : neglectedWeight table draws < hold table prior draws

theorem climb_stays_above (steady : slack table draws ≤ 2 ^ 27 * hold table prior draws)
    {start reached : Fit.Position ℝ (ofTable table).size}
    (looked : start =
      Fit.position Link.logistic ((ofTable table).posterior prior draws) start.strengths)
    (above : startLevel table prior draws ≤ start.value)
    (climbs : Fit.Climbs Link.logistic ((ofTable table).posterior prior draws) start reached) :
    startLevel table prior draws ≤ reached.value := by
  obtain ⟨step, found, rfl⟩ := climbs
  have value : start.value = logPosterior table prior draws start.strengths.get := by
    rw [← value_of_table table prior drawn.le, looked]
    rfl
  have steep := precision_steep table prior drawn.le (hold_le table prior drawn (value ▸ above))
  apply above.trans
  apply Fit.line_search_ascends_of_steep (placed_weight_nonneg table prior draws) looked found
    steep
  have length : 0 ≤ ∑ player, step.get player ^ 2 :=
    Finset.sum_nonneg fun player _ => sq_nonneg _
  calc
    _ ≤ slack table draws * ∑ player, step.get player ^ 2 := drag_along_le table prior drawn _
    _ ≤ 2 ^ 27 * hold table prior draws * ∑ player, step.get player ^ 2 :=
      mul_le_mul_of_nonneg_right steady length
    _ = _ := mul_assoc _ _ _

theorem visited_above_start (steady : slack table draws ≤ 2 ^ 27 * hold table prior draws)
    {last : Fit.Position ℝ (ofTable table).size}
    (visits : Fit.Visits Link.logistic ((ofTable table).posterior prior draws)
      (Fit.startPosition Link.logistic ((ofTable table).posterior prior draws)) last) :
    startLevel table prior draws ≤ last.value := by
  induction visits with
  | refl =>
      have start : (Fit.startPosition Link.logistic
          ((ofTable table).posterior prior draws)).strengths.get = fun _ => 0 :=
        funext (Fit.start_strengths_get _ _)
      change _ ≤ ((ofTable table).posterior prior draws).value Link.logistic
        (Fit.startPosition Link.logistic ((ofTable table).posterior prior draws)).strengths
      rw [value_of_table table prior drawn.le, start, startLevel]
  | tail visits climbs induction =>
      exact climb_stays_above table prior drawn steady (Fit.visited_is_position visits) induction
        climbs

/-- If the draws weigh enough, ratings fail for want of steps only. -/
theorem never_refused_of_tame (somebody : 0 < (ofTable table).size)
    (tame : Tame table prior draws) {settings : FitSettings ℝ} {cause : FitError}
    (refused : Fit.ratingsOf Link.logistic settings ((ofTable table).posterior prior draws) =
      .error cause) : cause = .notConverged settings.maxIterations := by
  rcases faint_of_refused table prior drawn somebody refused with spent | faint
  · exact spent
  · obtain ⟨last, visits, player, small⟩ := faint
    have above := visited_above_start table prior drawn tame.steady visits
    have value : last.value = logPosterior table prior draws last.strengths.get := by
      rw [← value_of_table table prior drawn.le, Fit.visited_is_position visits]
      rfl
    have held := hold_le table prior drawn (value ▸ above) player
    exact absurd (held.trans small) tame.firm.not_ge

end ScoreMatrix

end KifuRatings
