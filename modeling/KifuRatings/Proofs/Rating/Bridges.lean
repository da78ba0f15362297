import KifuRatings.Proofs.Rating.Centre
import KifuRatings.Proofs.Rating.Duel
import KifuRatings.Proofs.Rating.Groups

/-!
# Games that join players in one way only

Without draws against the prior, the log posterior is told by the records of all pairs of players
and by the mean. If the games of two players are the only ones between a group and the others, then
a direction that moves the group against the others sees no other record. So the Newton step moves
their difference as if they were by themselves. Where all games are of this kind, a Newton step
makes no record more costly: it is taken whole, and every difference stays on the way to the place
that explains its record.
-/

namespace KifuRatings

open Logistic Matrix

namespace ScoreMatrix

/-! ## The sums of games -/

section Undrawn

variable (table : Crosstable) (prior : ℝ) (strengths : Vector ℝ (ofTable table).size)

noncomputable def gamesLoss (strengths : Vector ℝ (ofTable table).size) : ℝ :=
  ∑ winner, ∑ loser, (ofTable table).won winner loser *
    softplus (strengths.get loser - strengths.get winner)

theorem value_of_games :
    ((ofTable table).posterior prior 0).value Link.logistic strengths =
      -gamesLoss table strengths - 5000 * meanAbove prior strengths.get ^ 2 := by
  rw [value_of_table table prior le_rfl, logPosterior, zero_div, zero_mul, sub_zero, gamesLoss]

theorem dot_precision_of_games (left right : Fin (ofTable table).size → ℝ) :
    left ⬝ᵥ ((((ofTable table).posterior prior 0).precision Link.logistic
        strengths).toMatrix *ᵥ right) =
      (∑ winner, ∑ loser, (ofTable table).won winner loser *
        (bend (strengths.get winner - strengths.get loser) *
          ((left winner - left loser) * (right winner - right loser))))
      + 10000 * ((∑ player, left player) / (ofTable table).size *
          ((∑ player, right player) / (ofTable table).size)) := by
  rw [dot_precision_of_table table prior le_rfl]
  simp only [zero_mul, Finset.sum_const_zero, add_zero]

theorem dot_gradient_of_games (direction : Fin (ofTable table).size → ℝ) :
    direction ⬝ᵥ (((ofTable table).posterior prior 0).gradient Link.logistic strengths).get =
      (∑ winner, ∑ loser, (ofTable table).won winner loser *
        (Real.sigmoid (-(strengths.get winner - strengths.get loser)) *
          (direction winner - direction loser)))
      - 10000 * (meanAbove prior strengths.get *
          ((∑ player, direction player) / (ofTable table).size)) := by
  have games : ∀ (winner loser : Fin (ofTable table).size) (weight : ℝ),
      (Term.wins winner loser weight).slope Link.logistic
        (Posterior.combination strengths (Term.wins winner loser weight)) =
        weight * Real.sigmoid (-(strengths.get winner - strengths.get loser)) := by
    intro winner loser weight
    rw [combination_wins, Term.wins, Term.slope_sigmoid]
  have center : (Term.center (List.finRange (ofTable table).size) prior).slope
      (Link.logistic : Link ℝ) (meanAbove prior strengths.get) =
        -1e4 * meanAbove prior strengths.get := rfl
  have nothing : ∀ combo offset,
      Term.slope Link.logistic ⟨combo, offset, 0, .sigmoid⟩
          (Posterior.combination strengths ⟨combo, offset, 0, .sigmoid⟩) *
        (⟨combo, offset, 0, .sigmoid⟩ : Term (Fin (ofTable table).size) ℝ).along direction = 0 := by
    intro combo offset
    rw [Term.slope_sigmoid, zero_mul, zero_mul]
  rw [Posterior.dot_gradient, sum_with_draws table prior 0 le_rfl nothing]
  simp only [mul_zero, nothing, add_zero, Finset.sum_const_zero, games, combination_center, center,
    Term.along_wins, Term.along_center, mul_assoc]
  ring

/-- The records of all pairs, each counted from both sides. -/
theorem games_loss_eq : 2 * gamesLoss table strengths =
    ∑ one, ∑ other, recordLoss ((ofTable table).won one other) ((ofTable table).won other one)
      (strengths.get one - strengths.get other) := by
  have turned : gamesLoss table strengths = ∑ one, ∑ other, (ofTable table).won other one *
      softplus (strengths.get one - strengths.get other) := by
    rw [gamesLoss, Finset.sum_comm]
  rw [two_mul]
  nth_rewrite 2 [turned]
  simp only [gamesLoss, recordLoss, neg_sub, Finset.sum_add_distrib]

end Undrawn

/-! ## Bridges -/

/-- The games of two players are the only ones between a group and the others. -/
structure Bridge (table : Crosstable) (group : Finset (Fin (ofTable table).size))
    (inner outer : Fin (ofTable table).size) : Prop where
  inside : inner ∈ group
  outside : outer ∉ group
  only : ∀ winner loser, 0 < (ofTable table).won winner loser → (winner ∈ group ↔ loser ∉ group) →
    winner = inner ∧ loser = outer ∨ winner = outer ∧ loser = inner

variable {table : Crosstable}

theorem sum_of_one_pair {size : Nat} {value : Fin size → Fin size → ℝ} {inner outer : Fin size}
    (different : inner ≠ outer)
    (others : ∀ winner loser, ¬(winner = inner ∧ loser = outer ∨ winner = outer ∧ loser = inner) →
      value winner loser = 0) :
    ∑ winner, ∑ loser, value winner loser = value inner outer + value outer inner := by
  rw [Fintype.sum_eq_add inner outer different]
  · rw [Fintype.sum_eq_single outer, Fintype.sum_eq_single inner]
    · intro loser elsewhere
      apply others
      simp [elsewhere, different.symm]
    · intro loser elsewhere
      apply others
      simp [elsewhere, different]
  · intro winner elsewhere
    apply Finset.sum_eq_zero
    intro loser _
    apply others
    simp [elsewhere.1, elsewhere.2]

/-- Only the games at the bridge see the group moved against the others. -/
theorem sum_across {group : Finset (Fin (ofTable table).size)}
    {inner outer : Fin (ofTable table).size} (bridge : Bridge table group inner outer)
    (share : Fin (ofTable table).size → Fin (ofTable table).size → ℝ) :
    ∑ winner, ∑ loser, (ofTable table).won winner loser *
        (share winner loser * (parting group winner - parting group loser)) =
      (ofTable table).size * ((ofTable table).won inner outer * share inner outer
        - (ofTable table).won outer inner * share outer inner) := by
  have different : inner ≠ outer := fun same => bridge.outside (same ▸ bridge.inside)
  have across : parting group inner - parting group outer = (ofTable table).size := by
    have everybody : (group.card : ℝ) + groupᶜ.card = (ofTable table).size := by
      have counted := Finset.card_add_card_compl group
      rw [Fintype.card_fin] at counted
      exact_mod_cast counted
    rw [parting, parting, if_pos bridge.inside, if_neg bridge.outside]
    linarith
  rw [sum_of_one_pair different, ← neg_sub (parting group inner), across]
  · ring
  · intro winner loser elsewhere
    by_cases crosses : winner ∈ group ↔ loser ∉ group
    · have unplayed : ¬0 < (ofTable table).won winner loser :=
        fun won => elsewhere (bridge.only winner loser won crosses)
      rw [le_antisymm (not_lt.mp unplayed) (won_nonneg _ winner loser), zero_mul]
    · have sameSide : winner ∈ group ↔ loser ∈ group := by tauto
      simp only [parting, sameSide, sub_self, mul_zero]

theorem dot_precision_across {group : Finset (Fin (ofTable table).size)}
    {inner outer : Fin (ofTable table).size} (bridge : Bridge table group inner outer) (prior : ℝ)
    (strengths : Vector ℝ (ofTable table).size) (direction : Fin (ofTable table).size → ℝ) :
    direction ⬝ᵥ ((((ofTable table).posterior prior 0).precision Link.logistic
        strengths).toMatrix *ᵥ parting group) =
      (ofTable table).size * (((ofTable table).won inner outer + (ofTable table).won outer inner) *
        bend (strengths.get inner - strengths.get outer) *
          (direction inner - direction outer)) := by
  rw [dot_precision_of_games, sum_parting, zero_div, mul_zero, mul_zero, add_zero]
  simp only [← mul_assoc (bend _)]
  rw [sum_across bridge, bend_sub_comm (strengths.get outer)]
  ring

/-- A Newton step moves the players at the ends of a bridge as if they were by themselves. -/
theorem step_of_bridge {prior : ℝ} {group : Finset (Fin (ofTable table).size)}
    {inner outer : Fin (ofTable table).size} (bridge : Bridge table group inner outer)
    {strengths step : Vector ℝ (ofTable table).size}
    (found : Fit.newtonStep Link.logistic ((ofTable table).posterior prior 0) strengths =
      some step) :
    ((ofTable table).won inner outer + (ofTable table).won outer inner) *
        bend (strengths.get inner - strengths.get outer) * (step.get inner - step.get outer) =
      pull ((ofTable table).won inner outer) ((ofTable table).won outer inner)
        (strengths.get inner - strengths.get outer) := by
  have some : ((ofTable table).size : ℝ) ≠ 0 := Nat.cast_ne_zero.mpr inner.pos.ne'
  have symmetric : parting group ⬝ᵥ ((((ofTable table).posterior prior 0).precision Link.logistic
      strengths).toMatrix *ᵥ step.get) = step.get ⬝ᵥ ((((ofTable table).posterior prior
        0).precision Link.logistic strengths).toMatrix *ᵥ parting group) := by
    rw [dot_precision_of_games, dot_precision_of_games]
    simp only [mul_comm]
  have solved := congrArg (parting group ⬝ᵥ ·) ((Grid.solve_unique found step.get).mpr rfl)
  rw [symmetric, dot_precision_across bridge, dot_gradient_of_games, sum_parting, zero_div,
    mul_zero, mul_zero, sub_zero, sum_across bridge] at solved
  rw [pull, mul_left_cancel₀ some solved, neg_sub (strengths.get outer)]

/-! ## Branching tables -/

/-- Players who met are joined by their own games only. -/
def Branching (table : Crosstable) : Prop :=
  ∀ one other, 0 < (ofTable table).won one other + (ofTable table).won other one →
    ∃ group, Bridge table group one other

/-- The better of two players who met leads, by no more than explains their record. -/
def Settling (table : Crosstable) (strengths : Vector ℝ (ofTable table).size) : Prop :=
  ∀ one other, 0 < (ofTable table).won one other →
    (ofTable table).won other one ≤ (ofTable table).won one other →
      Leads ((ofTable table).won one other) ((ofTable table).won other one)
        (strengths.get one - strengths.get other)

theorem settling_at_start (prior : ℝ) :
    Settling table
      (Fit.startPosition Link.logistic ((ofTable table).posterior prior 0)).strengths := by
  intro one other _ better
  rw [Fit.start_strengths_get, Fit.start_strengths_get, sub_self]
  exact leads_at_zero better

theorem shift_difference {size : Nat} (strengths step : Vector ℝ size) (one other : Fin size) :
    (Fit.shift strengths step 1).get one - (Fit.shift strengths step 1).get other =
      strengths.get one - strengths.get other + (step.get one - step.get other) := by
  rw [Fit.get_shift, Fit.get_shift]
  ring

section Step

variable (branching : Branching table) {prior : ℝ} {strengths step : Vector ℝ (ofTable table).size}
  (settling : Settling table strengths)
  (found : Fit.newtonStep Link.logistic ((ofTable table).posterior prior 0) strengths = some step)

include branching found

/-- The difference of players who met moves by Newton's method for their record. -/
theorem newton_of_branching {one other : Fin (ofTable table).size}
    (won : 0 < (ofTable table).won one other) :
    ((ofTable table).won one other + (ofTable table).won other one) *
        bend (strengths.get one - strengths.get other) * (step.get one - step.get other) =
      pull ((ofTable table).won one other) ((ofTable table).won other one)
        (strengths.get one - strengths.get other) := by
  obtain ⟨group, bridge⟩ := branching one other (add_pos_of_pos_of_nonneg won (won_nonneg _ _ _))
  exact step_of_bridge bridge found

include settling

theorem settling_of_step : Settling table (Fit.shift strengths step 1) := by
  intro one other won better
  rw [shift_difference]
  exact leads_of_step won (won_nonneg _ _ _) (settling one other won better)
    (newton_of_branching branching found won)

theorem record_loss_of_better {one other : Fin (ofTable table).size}
    (better : (ofTable table).won other one ≤ (ofTable table).won one other) :
    recordLoss ((ofTable table).won one other) ((ofTable table).won other one)
        ((Fit.shift strengths step 1).get one - (Fit.shift strengths step 1).get other) ≤
      recordLoss ((ofTable table).won one other) ((ofTable table).won other one)
        (strengths.get one - strengths.get other) := by
  rcases (won_nonneg (ofTable table) one other).eq_or_lt with nothing | won
  · have neither : (ofTable table).won other one = 0 :=
      le_antisymm (better.trans nothing.symm.le) (won_nonneg _ _ _)
    rw [← nothing, neither, recordLoss, recordLoss, zero_mul, zero_mul, zero_mul, zero_mul]
  · rw [shift_difference]
    exact record_loss_of_step won (won_nonneg _ _ _) (settling one other won better)
      (newton_of_branching branching found won)

theorem record_loss_of_whole (one other : Fin (ofTable table).size) :
    recordLoss ((ofTable table).won one other) ((ofTable table).won other one)
        ((Fit.shift strengths step 1).get one - (Fit.shift strengths step 1).get other) ≤
      recordLoss ((ofTable table).won one other) ((ofTable table).won other one)
        (strengths.get one - strengths.get other) := by
  rcases le_total ((ofTable table).won other one) ((ofTable table).won one other) with
    ahead | behind
  · exact record_loss_of_better branching settling found ahead
  · have turned := record_loss_of_better branching settling found behind
    rwa [← neg_sub, record_loss_neg, ← neg_sub (strengths.get one), record_loss_neg] at turned

theorem value_of_whole :
    ((ofTable table).posterior prior 0).value Link.logistic strengths ≤
      ((ofTable table).posterior prior 0).value Link.logistic (Fit.shift strengths step 1) := by
  have games : gamesLoss table (Fit.shift strengths step 1) ≤ gamesLoss table strengths := by
    have doubled : 2 * gamesLoss table (Fit.shift strengths step 1) ≤
        2 * gamesLoss table strengths := by
      rw [games_loss_eq, games_loss_eq]
      apply Finset.sum_le_sum
      intro one _
      apply Finset.sum_le_sum
      intro other _
      exact record_loss_of_whole branching settling found one other
    linarith
  have mean := mean_of_whole_step table prior Link.logistic found
  have square := sq_nonneg (meanAbove prior strengths.get)
  rw [value_of_games, value_of_games, mean]
  linarith

end Step

theorem stride_of_branching (branching : Branching table) {prior : ℝ}
    {start : Fit.Position ℝ (ofTable table).size}
    (looked : start =
      Fit.position Link.logistic ((ofTable table).posterior prior 0) start.strengths)
    (settling : Settling table start.strengths) {step : Vector ℝ (ofTable table).size}
    (found : Fit.newtonStep Link.logistic ((ofTable table).posterior prior 0) start.strengths =
      some step) :
    Fit.stride? Link.logistic ((ofTable table).posterior prior 0) start =
      some ⟨start, step, 1, Fit.position Link.logistic ((ofTable table).posterior prior 0)
        (Fit.shift start.strengths step 1)⟩ := by
  apply Fit.stride_whole found
  rw [Fit.value_of_position looked, not_lt]
  exact value_of_whole branching settling found

theorem climbs_whole (branching : Branching table) {prior : ℝ}
    {start reached : Fit.Position ℝ (ofTable table).size}
    (looked : start =
      Fit.position Link.logistic ((ofTable table).posterior prior 0) start.strengths)
    (settling : Settling table start.strengths)
    (climbs : Fit.Climbs Link.logistic ((ofTable table).posterior prior 0) start reached) :
    ∃ step, Fit.newtonStep Link.logistic ((ofTable table).posterior prior 0) start.strengths =
        some step ∧ reached.strengths = Fit.shift start.strengths step 1 := by
  obtain ⟨step, found, rfl⟩ := climbs
  obtain ⟨_, _, searched⟩ :=
    Fit.stride_eq_some (stride_of_branching branching looked settling found)
  rw [searched]
  exact ⟨step, found, rfl⟩

theorem visited_settling (branching : Branching table) {prior : ℝ}
    {last : Fit.Position ℝ (ofTable table).size}
    (visits : Fit.Visits Link.logistic ((ofTable table).posterior prior 0)
      (Fit.startPosition Link.logistic ((ofTable table).posterior prior 0)) last) :
    Settling table last.strengths := by
  induction visits with
  | refl => exact settling_at_start prior
  | tail visits climbs induction =>
      obtain ⟨step, found, whole⟩ :=
        climbs_whole branching (Fit.visited_is_position visits) induction climbs
      rw [whole]
      exact settling_of_step branching induction found

end ScoreMatrix

end KifuRatings
