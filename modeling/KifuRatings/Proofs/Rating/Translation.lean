import KifuRatings.Proofs.Rating.Centre
import KifuRatings.Proofs.Rating.Uncertainty

/-!
# Another prior

A term that looks at raised strengths sees what it saw before, if its offset takes back what the
raise adds to its combination. For games this is nothing. For the mean it is the raise, since the
shares of the players are one in all, and for the two sides of a virtual draw it is the raise with
the one sign and with the other: just what another prior changes in the offsets. So the prior is an
origin of the scale and nothing else. Where the log posterior is highest moves along with it, and
the ratings there keep their differences and covariances.
-/

namespace KifuRatings

open Matrix

section Raised

variable {size : Nat}

def raise (change : ℝ) (strengths : Vector ℝ size) : Vector ℝ size := strengths.map (· + change)

@[simp]
theorem get_raise (change : ℝ) (strengths : Vector ℝ size) (player : Fin size) :
    (raise change strengths).get player = strengths.get player + change :=
  Vector.get_map ..

@[simp]
theorem raise_lowered (change : ℝ) (strengths : Vector ℝ size) :
    raise change (raise (-change) strengths) = strengths := by
  apply vector_ext
  intro player
  simp

namespace Term

/-- The term that sees in raised strengths what the term sees in the strengths. -/
noncomputable def raised (change : ℝ) (term : Term (Fin size) ℝ) : Term (Fin size) ℝ :=
  { term with offset := term.offset - term.along fun _ => change }

theorem raised_wins (change : ℝ) (winner loser : Fin size) (weight : ℝ) :
    (wins winner loser weight).raised change = wins winner loser weight := by
  rw [raised, along_wins, sub_self, sub_zero]

theorem raised_single (change : ℝ) (player : Fin size) (sign offset weight : ℝ) (shape : Shape) :
    (⟨[(player, sign)], offset, weight, shape⟩ : Term (Fin size) ℝ).raised change =
      ⟨[(player, sign)], offset - sign * change, weight, shape⟩ := by
  rw [raised, along_single]

theorem raised_anchored (change : ℝ) (player : Fin size) (games elo : ℝ) :
    (anchored player games elo).map (raised (strengthOf change)) =
      anchored player games (elo + change) := by
  unfold anchored
  split
  · rfl
  · have above : -(elo / eloPerStrength) - 1 * strengthOf change =
        -((elo + change) / eloPerStrength) := by
      rw [strengthOf]
      ring
    have below : elo / eloPerStrength - -1 * strengthOf change =
        (elo + change) / eloPerStrength := by
      rw [strengthOf]
      ring
    simp only [List.map_cons, List.map_nil, raised_single, above, below]

theorem raised_center (somebody : 0 < size) (change elo : ℝ) :
    (center (List.finRange size) elo).raised (strengthOf change) =
      center (List.finRange size) (elo + change) := by
  have whole : (center (List.finRange size) elo).along (fun _ => strengthOf change) =
      strengthOf change := by
    rw [along_center, Fin.sum_const, nsmul_eq_mul]
    exact mul_div_cancel_left₀ _ (Nat.cast_ne_zero.mpr somebody.ne')
  have offset : -elo / eloPerStrength - strengthOf change = -(elo + change) / eloPerStrength := by
    rw [strengthOf]
    ring
  rw [raised, whole]
  unfold center
  rw [offset]

end Term

namespace Posterior

noncomputable def raised (change : ℝ) (posterior : Posterior ℝ size) : Posterior ℝ size :=
  { posterior with terms := posterior.terms.map (Term.raised change) }

variable (change : ℝ) (link : Link ℝ) (posterior : Posterior ℝ size) (strengths : Vector ℝ size)

theorem combination_raised (term : Term (Fin size) ℝ) :
    combination (raise change strengths) (term.raised change) = combination strengths term := by
  have moved : (raise change strengths).get = strengths.get + fun _ => change :=
    funext fun player => get_raise change strengths player
  rw [combination_eq, combination_eq, moved]
  change term.along (strengths.get + fun _ => change) +
    (term.offset - term.along fun _ => change) = _
  simp only [Term.along_eq_dot, dotProduct_add]
  ring

/-- A sum of shares that do not read the offsets but through the combinations. -/
theorem sum_raised (share : Term (Fin size) ℝ → ℝ → ℝ)
    (same : ∀ term x, share (term.raised change) x = share term x) :
    ((posterior.raised change).terms.map fun term =>
        share term (combination (raise change strengths) term)).sum =
      (posterior.terms.map fun term => share term (combination strengths term)).sum := by
  rw [raised, List.map_map]
  apply sum_map_congr
  intro term _
  rw [Function.comp_apply, combination_raised, same]

theorem value_raised : (posterior.raised change).value link (raise change strengths) =
    posterior.value link strengths := by
  rw [value_eq, value_eq]
  exact sum_raised change posterior strengths (fun term => term.value link) fun _ _ => rfl

theorem gradient_raised : (posterior.raised change).gradient link (raise change strengths) =
    posterior.gradient link strengths := by
  apply vector_ext
  intro player
  rw [gradient_get, gradient_get]
  exact sum_raised change posterior strengths
    (fun term x => term.slope link x * term.coefficient player) fun _ _ => rfl

theorem hessian_raised : (posterior.raised change).hessian link (raise change strengths) =
    posterior.hessian link strengths := by
  apply vector_ext
  intro row
  apply vector_ext
  intro column
  change Grid.entry _ row column = Grid.entry _ row column
  rw [hessian_entry, hessian_entry]
  exact sum_raised change posterior strengths
    (fun term x => term.curvature link x * term.coefficient row * term.coefficient column)
    fun _ _ => rfl

theorem highest_raised : (posterior.raised change).Highest link (raise change strengths) ↔
    posterior.Highest link strengths := by
  unfold Highest
  rw [value_raised]
  constructor
  · intro highest other
    rw [← value_raised change link posterior other]
    exact highest _
  · intro highest other
    rw [← raise_lowered change other, value_raised]
    exact highest _

end Posterior

end Raised

noncomputable def RatingList.raised (change : ℝ) (ratings : RatingList ℝ) : RatingList ℝ :=
  { ratings with
    entries := ratings.entries.map fun rating => { rating with elo := rating.elo + change } }

theorem RatingList.raised_of_strengths {size : Nat} (change : ℝ) (players : Vector String size)
    (strengths : Vector ℝ size) (covariance : Grid ℝ size) :
    ofStrengths players (raise (strengthOf change) strengths) covariance =
      (ofStrengths players strengths covariance).raised change := by
  have points : strengthOf change * Term.eloPerStrength = change :=
    div_mul_cancel₀ change elo_per_strength_ne
  unfold raised ofStrengths
  simp only [Vector.map_ofFn, Function.comp_def, get_raise, add_mul, points]

namespace ScoreMatrix

variable (table : Crosstable) (prior change draws : ℝ)

theorem posterior_raised (somebody : 0 < (ofTable table).size) :
    (ofTable table).posterior (prior + change) draws =
      ((ofTable table).posterior prior draws).raised (strengthOf change) := by
  have games : ∀ first second,
      ((ofTable table).gameTerms first second).map (Term.raised (strengthOf change)) =
        (ofTable table).gameTerms first second := by
    intro first second
    simp only [gameTerms, List.map_append, apply_ite (List.map _), List.map_singleton,
      List.map_nil, Term.raised_wins]
  have terms : ((ofTable table).posterior (prior + change) draws).terms =
      ((ofTable table).posterior prior draws).terms.map (Term.raised (strengthOf change)) := by
    rw [terms_of_table, terms_of_table, List.map_append, List.map_append, List.map_singleton,
      Term.raised_center somebody]
    congr 2
    · simp only [List.map_flatMap, games]
    · split
      · simp only [List.map_flatMap, Term.raised_anchored]
      · rfl
  rw [Posterior.raised, ← terms]
  rfl

theorem of_terms_eq :
    (⟨_, Posterior.ofTerms ((ofTable table).terms prior draws)⟩ : Σ size, Posterior ℝ size) =
      ⟨_, (ofTable table).posterior prior draws⟩ :=
  Posterior.of_names (players_of_terms table prior draws)
    (fun {size} posterior => (⟨size, posterior⟩ : Σ size, Posterior ℝ size) =
      ⟨_, (ofTable table).posterior prior draws⟩) rfl

variable (link : Link ℝ) (strengths : Vector ℝ (ofTable table).size)

theorem gradient_shifted :
    ((ofTable table).posterior (prior + change) draws).gradient link
        (raise (strengthOf change) strengths) =
      ((ofTable table).posterior prior draws).gradient link strengths := by
  apply vector_ext
  intro player
  rw [posterior_raised table prior change draws player.pos, Posterior.gradient_raised]

theorem hessian_shifted :
    ((ofTable table).posterior (prior + change) draws).hessian link
        (raise (strengthOf change) strengths) =
      ((ofTable table).posterior prior draws).hessian link strengths := by
  apply vector_ext
  intro row
  rw [posterior_raised table prior change draws row.pos, Posterior.hessian_raised]

theorem precision_shifted :
    ((ofTable table).posterior (prior + change) draws).precision link
        (raise (strengthOf change) strengths) =
      ((ofTable table).posterior prior draws).precision link strengths := by
  rw [Posterior.precision, hessian_shifted, Posterior.precision]

theorem highest_shifted :
    ((ofTable table).posterior (prior + change) draws).Highest link
        (raise (strengthOf change) strengths) ↔
      ((ofTable table).posterior prior draws).Highest link strengths := by
  rcases (ofTable table).size.eq_zero_or_pos with nobody | somebody
  · have only : ∀ left right : Vector ℝ (ofTable table).size, left = right := fun left right =>
      vector_ext fun player => absurd player.pos nobody.not_gt
    exact iff_of_true (fun other => by rw [only other]) (fun other => by rw [only other])
  · rw [posterior_raised table prior change draws somebody, Posterior.highest_raised]

theorem ratings_at_raised :
    Fit.ratingsAt link ((ofTable table).posterior (prior + change) draws)
        (raise (strengthOf change) strengths) =
      (Fit.ratingsAt link ((ofTable table).posterior prior draws) strengths).map
        (RatingList.raised change) := by
  rw [Fit.ratingsAt, Fit.ratingsAt, precision_shifted]
  cases (((ofTable table).posterior prior draws).precision link strengths).inverse with
  | none => rfl
  | some covariance =>
      exact congrArg Except.ok (RatingList.raised_of_strengths change _ strengths covariance)

/-! ## Ratings where the log posterior is highest -/

section Highest

variable {table prior draws link} {lower higher : Vector ℝ (ofTable table).size}
  (lowerHighest : ((ofTable table).posterior prior draws).Highest Link.logistic lower)
  (higherHighest :
    ((ofTable table).posterior (prior + change) draws).Highest Link.logistic higher)

theorem lowered_highest
    (highest : ((ofTable table).posterior (prior + change) draws).Highest link strengths) :
    ((ofTable table).posterior prior draws).Highest link
      (raise (-strengthOf change) strengths) := by
  rwa [← highest_shifted table prior change draws, raise_lowered]

theorem raised_of_only
    (only : ∀ other, ((ofTable table).posterior prior draws).Highest link other → other = lower)
    (highest : ((ofTable table).posterior (prior + change) draws).Highest link strengths) :
    strengths = raise (strengthOf change) lower := by
  rw [← only _ (lowered_highest change strengths highest), raise_lowered]

include lowerHighest higherHighest

theorem precision_of_shifted :
    ((ofTable table).posterior (prior + change) draws).precision Link.logistic higher =
      ((ofTable table).posterior prior draws).precision Link.logistic lower := by
  rw [← raise_lowered (strengthOf change) higher, precision_shifted]
  exact Posterior.precision_of_highest (placed_weight_nonneg table prior draws)
    (lowered_highest change higher higherHighest) lowerHighest

/-- Whether there are ratings does not depend on the prior, and if there are, all of them are as
much higher as the prior is. -/
theorem ratings_of_shifted :
    Fit.ratingsAt Link.logistic ((ofTable table).posterior (prior + change) draws) higher =
      (Fit.ratingsAt Link.logistic ((ofTable table).posterior prior draws) lower).map
        (RatingList.raised change) := by
  cases inverted :
      (((ofTable table).posterior prior draws).precision Link.logistic lower).inverse with
  | none =>
      rw [Fit.ratingsAt, Fit.ratingsAt, precision_of_shifted change lowerHighest higherHighest,
        inverted]
      rfl
  | some covariance =>
      have same := Posterior.highest_unique (placed_weight_nonneg table prior draws) lowerHighest
        (lowered_highest change higher higherHighest) inverted
      rw [← raise_lowered (strengthOf change) higher, ← same, ratings_at_raised]

end Highest

end ScoreMatrix

namespace Crosstable

open ScoreMatrix

/-- Another prior is another origin of the scale. With all strengths raised along with it, the log
posterior of a table has the value, the gradient and the matrix of second derivatives that it had;
so it is highest in the raised places. If it is highest in one place only, the differences of
strengths there and the precision do not depend on the prior. On the logistic curve the precision
never does, and ratings are all higher by what the prior is higher, with the same errors and
covariances, or are refused alike. Without players no fit gets as far as a log posterior. -/
theorem prior_only_shifts (table : Crosstable) (prior change draws : ℝ) :
    let before := (ofTable table).posterior prior draws
    let after := (ofTable table).posterior (prior + change) draws
    let raised := fun strengths : Vector ℝ (ofTable table).size =>
      strengths.map (· + change / Term.eloPerStrength)
    (∀ elo, (⟨_, Posterior.ofTerms ((ofTable table).terms elo draws)⟩ :
        Σ size, Posterior ℝ size) = ⟨_, (ofTable table).posterior elo draws⟩) ∧
    (table.players = [] → ∀ link settings elo,
      table.rate link settings elo draws = .error .noPlayers) ∧
    (table.players ≠ [] → ∀ link strengths,
      after.value link (raised strengths) = before.value link strengths) ∧
    (∀ link strengths,
      after.gradient link (raised strengths) = before.gradient link strengths ∧
      after.hessian link (raised strengths) = before.hessian link strengths ∧
      (after.Highest link (raised strengths) ↔ before.Highest link strengths)) ∧
    (∀ link lower higher, before.Highest link lower →
      (∀ other, before.Highest link other → other = lower) → after.Highest link higher →
        after.precision link higher = before.precision link lower ∧
        ∀ one other, higher.get one - higher.get other = lower.get one - lower.get other) ∧
    ∀ lower higher, before.Highest Link.logistic lower → after.Highest Link.logistic higher →
      after.precision Link.logistic higher = before.precision Link.logistic lower ∧
      Fit.ratingsAt Link.logistic after higher =
        (Fit.ratingsAt Link.logistic before lower).map (RatingList.raised change) := by
  intro before after raised
  refine ⟨?_, ?_, ?_, ?_, ?_, ?_⟩
  · intro elo
    exact of_terms_eq table elo draws
  · intro nobody link settings elo
    rw [rate_eq, nobody]
    rfl
  · intro somebody link strengths
    have listed : 0 < (ofTable table).size := List.length_pos_iff.mpr somebody
    simp only [after, posterior_raised table prior change draws listed]
    exact Posterior.value_raised _ link before strengths
  · intro link strengths
    exact ⟨gradient_shifted table prior change draws link strengths,
      hessian_shifted table prior change draws link strengths,
      highest_shifted table prior change draws link strengths⟩
  · intro link lower higher lowerHighest only higherHighest
    rw [raised_of_only change higher only higherHighest]
    refine ⟨precision_shifted table prior change draws link lower, ?_⟩
    intro one other
    simp
  · intro lower higher lowerHighest higherHighest
    exact ⟨precision_of_shifted change lowerHighest higherHighest,
      ratings_of_shifted change lowerHighest higherHighest⟩

/-- Two players who won as often as they lost are rated at the prior, wherever it is. -/
theorem even_pair_is_shifted :
    evenPair.players ≠ [] ∧ ∃ lower higher ratings,
      ((ofTable evenPair).posterior 0 1).Highest Link.logistic lower ∧
      (∀ other, ((ofTable evenPair).posterior 0 1).Highest Link.logistic other → other = lower) ∧
      ((ofTable evenPair).posterior 5000 1).Highest Link.logistic higher ∧
      ((ofTable evenPair).posterior 5000 1).value Link.logistic higher =
        ((ofTable evenPair).posterior 0 1).value Link.logistic lower ∧
      (∀ one other, higher.get one - higher.get other = lower.get one - lower.get other) ∧
      Fit.ratingsAt Link.logistic ((ofTable evenPair).posterior 0 1) lower = .ok ratings ∧
      Fit.ratingsAt Link.logistic ((ofTable evenPair).posterior 5000 1) higher =
        .ok (ratings.raised 5000) := by
  have somebody : evenPair.players ≠ [] := by decide +kernel
  have listed : 0 < (ofTable evenPair).size := List.length_pos_iff.mpr somebody
  obtain ⟨_, _, values, places, differences, ratings⟩ := prior_only_shifts evenPair 0 5000 1
  rw [zero_add] at values places differences ratings
  have lowerHighest : ((ofTable evenPair).posterior 0 1).Highest Link.logistic
      (equalStrengths evenPair) :=
    Posterior.highest_of_still (placed_weight_nonneg evenPair 0 1)
      (gradient_of_even one_pos even_pair_scores)
  have only : ∀ other, ((ofTable evenPair).posterior 0 1).Highest Link.logistic other →
      other = equalStrengths evenPair := fun other highest =>
    (exists_unique_maximum evenPair 0 one_pos listed).unique highest lowerHighest
  have higherHighest := (places Link.logistic _).2.2.mpr lowerHighest
  obtain ⟨covariance, inverted⟩ :=
    Option.ne_none_iff_exists'.mp (accepted_at_prior one_pos somebody even_pair_firm).2
  have rated : Fit.ratingsAt Link.logistic ((ofTable evenPair).posterior 0 1)
      (equalStrengths evenPair) = .ok (RatingList.ofStrengths (ofTable evenPair).players
        (equalStrengths evenPair) covariance) := by
    rw [Fit.ratingsAt, inverted]
    rfl
  refine ⟨somebody, _, _, _, lowerHighest, only, higherHighest,
    values somebody Link.logistic _, ?_, rated, ?_⟩
  · exact (differences Link.logistic _ _ lowerHighest only higherHighest).2
  · rw [(ratings _ _ lowerHighest higherHighest).2, rated]
    rfl

end Crosstable

end KifuRatings
