import KifuRatings.Proofs.Rating.Terms
import KifuRatings.Proofs.Rating.Logistic

/-!
# What a posterior with draws is measured by

The log posterior of a table with draws against the prior, what its precision makes of a direction,
and the weights that are set against each other where a step leads up or a system is refused.
-/

namespace KifuRatings

open Logistic

noncomputable def strengthOf (elo : ℝ) : ℝ := elo / Term.eloPerStrength

/-- The parabola below the term's value. -/
noncomputable def Term.drag {size : Nat} (term : Term (Fin size) ℝ) : ℝ :=
  match term.shape with
  | .sigmoid => term.weight / 4
  | .gaussian => term.weight / 2

namespace ScoreMatrix

theorem sum_of_opposite {size : Nat} {share : Fin size → Fin size → ℝ}
    (opposite : ∀ one other, share one other = -share other one) :
    ∑ one, ∑ other, share one other = 0 := by
  have turned : ∑ one, ∑ other, share one other = -∑ one, ∑ other, share one other := by
    calc
      ∑ one, ∑ other, share one other = ∑ other, ∑ one, share one other := Finset.sum_comm
      _ = ∑ other, ∑ one, -share other one := by simp only [← opposite]
      _ = -∑ one, ∑ other, share one other := by simp only [Finset.sum_neg_distrib]
  exact self_eq_neg.mp turned

variable (table : Crosstable) (prior draws : ℝ)

noncomputable def meanAbove {size : Nat} (prior : ℝ) (strengths : Fin size → ℝ) : ℝ :=
  (∑ player, strengths player) / size - strengthOf prior

noncomputable def logPosterior (strengths : Fin (ofTable table).size → ℝ) : ℝ :=
  -(∑ winner, ∑ loser,
      (ofTable table).won winner loser * softplus (strengths loser - strengths winner))
    - draws / 2 * ∑ player, drawLoss (strengths player - strengthOf prior)
    - 5000 * meanAbove prior strengths ^ 2

noncomputable def stiffness (strengths direction : Fin (ofTable table).size → ℝ) : ℝ :=
  (∑ winner, ∑ loser, (ofTable table).won winner loser *
      (bend (strengths winner - strengths loser) * (direction winner - direction loser) ^ 2))
    + draws * ∑ player, bend (strengths player - strengthOf prior) * direction player ^ 2
    + 10000 * ((∑ player, direction player) / (ofTable table).size) ^ 2

noncomputable def entryBound (table : Crosstable) (draws : ℝ) : ℝ :=
  (totalWon table + draws) / 4 + 10000 / (ofTable table).size ^ 2

/-- The log posterior leaves no tangent faster than the parabola with this coefficient. -/
noncomputable def slack (table : Crosstable) (draws : ℝ) : ℝ :=
  totalWon table + draws / 4 + 5000 / (ofTable table).size

noncomputable def startLevel (table : Crosstable) (prior draws : ℝ) : ℝ :=
  logPosterior table prior draws fun _ => 0

/-- What the draws of a player weigh at least where the log posterior is no lower than at the
start. -/
noncomputable def hold (table : Crosstable) (prior draws : ℝ) : ℝ :=
  draws * (4 ^ ((ofTable table).size - 1) * Real.exp (2 * startLevel table prior draws / draws))

/-- The draws against a prior far away are next to nothing beside the weight of the mean. -/
def Faint (table : Crosstable) (prior draws : ℝ) : Prop :=
  2 ^ ((ofTable table).size - 1) *
      (draws * bend (strengthOf prior) * (ofTable table).size) ≤
    Elimination.tolerance * (10000 / (ofTable table).size ^ 2)

end ScoreMatrix

end KifuRatings
