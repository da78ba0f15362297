import KifuRatings.Proofs.Rating.Centre
import KifuRatings.Proofs.Rating.VirtualDraws

/-!
# The cells of a matrix among its terms

Games go from the cells of a score matrix to a total and a rate, and back to two weights. Over the
real numbers nothing is lost on the way: the terms are, in some order, one for each cell that is not
zero, two for each player if there are virtual draws, and one for the mean. So the log posterior is
the sum over the cells of the logarithms of the winning probabilities, and the priors.
-/

namespace KifuRatings

open Logistic

/-- A term for results that were scored by these players, in this order. -/
def Term.ResultOf {ρ α : Type} (players : List ρ) (term : Term ρ α) : Prop :=
  term.shape = .sigmoid ∧ term.combo.map (·.1) = players

instance {ρ α : Type} [DecidableEq ρ] (players : List ρ) :
    DecidablePred (Term.ResultOf players : Term ρ α → Prop) :=
  fun term => inferInstanceAs (Decidable (term.shape = .sigmoid ∧ term.combo.map (·.1) = players))

namespace ScoreMatrix

variable (table : Crosstable) (prior draws : ℝ)

noncomputable def virtualWin (prior draws : ℝ) (player : String) : Term String ℝ :=
  ⟨[(player, 1)], -strengthOf prior, 0.5 * draws, .sigmoid⟩

noncomputable def virtualLoss (prior draws : ℝ) (player : String) : Term String ℝ :=
  ⟨[(player, -1)], strengthOf prior, 0.5 * draws, .sigmoid⟩

theorem anchored_exact {draws : ℝ} (drawn : 0 < draws) (player : String) :
    Term.anchored player draws prior =
      [virtualWin prior draws player, virtualLoss prior draws player] :=
  Term.anchored_eq player drawn prior

theorem coe_flat_map {ι κ : Type} (items : List ι) (parts : ι → List κ) :
    (↑(items.flatMap parts) : Multiset κ) =
      (items.map fun item => (↑(parts item) : Multiset κ)).sum := by
  rw [← Multiset.coe_bind, Multiset.bind, Multiset.join, Multiset.map_coe, Multiset.sum_coe]

theorem terms_by_cells :
    (↑((ofTable table).terms prior draws) : Multiset (Term String ℝ)) =
      (∑ winner, ∑ loser, ↑((ofTable table).cellTerms winner loser))
      + (if 0 < draws then ∑ player : Fin (ofTable table).size,
          {virtualWin prior draws ((ofTable table).players.get player),
            virtualLoss prior draws ((ofTable table).players.get player)} else 0)
      + {Term.center (ofTable table).players.toList prior} := by
  rw [terms, ← Multiset.coe_add, ← Multiset.coe_add, Multiset.coe_singleton]
  congr 2
  · have alone : ∀ player,
        (↑((ofTable table).cellTerms player player) : Multiset (Term String ℝ)) = 0 := by
      intro player
      rw [cellTerms, won_alone, if_neg (lt_irrefl 0)]
      rfl
    rw [coe_flat_map, sum_of_all, ← sum_above_diagonal alone]
    apply Finset.sum_congr rfl
    intro first _
    rw [coe_flat_map, sum_map_filter, sum_of_all]
    simp only [pair_terms_exact, Multiset.coe_add]
  · split
    · rename_i drawn
      rw [players_listed, List.flatMap_map, coe_flat_map, sum_of_all]
      simp only [anchored_exact prior drawn]
      rfl
    · rfl

theorem filter_sum {ι κ : Type} (keep : κ → Prop) [DecidablePred keep] (items : Finset ι)
    (parts : ι → Multiset κ) :
    (∑ item ∈ items, parts item).filter keep = ∑ item ∈ items, (parts item).filter keep :=
  map_sum (⟨⟨Multiset.filter keep, Multiset.filter_zero keep⟩, Multiset.filter_add keep⟩ :
    Multiset κ →+ Multiset κ) parts items

theorem filter_cell (matrix : ScoreMatrix) (winner loser : Fin matrix.size)
    (players : List String) :
    (↑(matrix.cellTerms winner loser) : Multiset (Term String ℝ)).filter (Term.ResultOf players) =
      if [matrix.players.get winner, matrix.players.get loser] = players then
        ↑(matrix.cellTerms winner loser) else 0 := by
  rw [cellTerms]
  split
  · rw [Multiset.coe_singleton, Multiset.filter_singleton]
    simp only [Term.ResultOf, Term.wins, List.map_cons, List.map_nil, true_and]
    rfl
  · split <;> rfl

theorem filter_virtual (player : String) (players : List String) :
    ({virtualWin prior draws player, virtualLoss prior draws player} :
        Multiset (Term String ℝ)).filter (Term.ResultOf players) =
      if [player] = players then {virtualWin prior draws player, virtualLoss prior draws player}
      else 0 := by
  have kind : ∀ term ∈ ({virtualWin prior draws player, virtualLoss prior draws player} :
      Multiset (Term String ℝ)), Term.ResultOf players term ↔ [player] = players := by
    simp [Term.ResultOf, virtualWin, virtualLoss]
  by_cases same : [player] = players
  · rw [if_pos same]
    exact Multiset.filter_eq_self.mpr fun term member => (kind term member).mpr same
  · rw [if_neg same]
    exact Multiset.filter_eq_nil.mpr fun term member => mt (kind term member).mp same

theorem results_of (players : List String) :
    (↑((ofTable table).terms prior draws) : Multiset (Term String ℝ)).filter
        (Term.ResultOf players) =
      (∑ winner, ∑ loser,
        if [(ofTable table).players.get winner, (ofTable table).players.get loser] = players then
          ↑((ofTable table).cellTerms winner loser) else 0)
      + (if 0 < draws then ∑ player : Fin (ofTable table).size,
          if [(ofTable table).players.get player] = players then
            {virtualWin prior draws ((ofTable table).players.get player),
              virtualLoss prior draws ((ofTable table).players.get player)} else 0 else 0) := by
  have center : ¬ Term.ResultOf players (Term.center (ofTable table).players.toList prior) := by
    rintro ⟨isSigmoid, _⟩
    cases isSigmoid
  rw [terms_by_cells, Multiset.filter_add, Multiset.filter_add, Multiset.filter_singleton,
    if_neg center, Multiset.empty_eq_zero, add_zero, filter_sum]
  simp only [filter_sum, filter_cell]
  congr 1
  split
  · simp only [filter_sum, filter_virtual]
  · rfl

/-- A cell has one term, if anything was won, and no term of other players in their order. -/
theorem cell_results (winner loser : Fin (ofTable table).size) :
    (↑((ofTable table).terms prior draws) : Multiset (Term String ℝ)).filter
        (Term.ResultOf [(ofTable table).players.get winner, (ofTable table).players.get loser]) =
      ↑((ofTable table).cellTerms winner loser) := by
  rw [results_of, Finset.sum_eq_single winner, Finset.sum_eq_single loser]
  · simp
  · intro other _ different
    simp [player_injective.eq_iff, different]
  · simp
  · intro other _ different
    simp [player_injective.eq_iff, different]
  · simp

theorem virtual_results (player : Fin (ofTable table).size) :
    (↑((ofTable table).terms prior draws) : Multiset (Term String ℝ)).filter
        (Term.ResultOf [(ofTable table).players.get player]) =
      if 0 < draws then {virtualWin prior draws ((ofTable table).players.get player),
        virtualLoss prior draws ((ofTable table).players.get player)} else 0 := by
  rw [results_of]
  simp [player_injective.eq_iff]

theorem kinds_of_terms {term : Term String ℝ}
    (member : term ∈ (ofTable table).terms prior draws) :
    (∃ winner loser, term.ResultOf
      [(ofTable table).players.get winner, (ofTable table).players.get loser]) ∨
    (∃ player, term.ResultOf [(ofTable table).players.get player]) ∨
    term = Term.center (ofTable table).players.toList prior := by
  rw [← Multiset.mem_coe, terms_by_cells, Multiset.mem_add, Multiset.mem_add,
    Multiset.mem_singleton] at member
  rcases member with (game | draw) | center
  · left
    obtain ⟨winner, _, inRow⟩ := Multiset.mem_sum.mp game
    obtain ⟨loser, _, inCell⟩ := Multiset.mem_sum.mp inRow
    rw [Multiset.mem_coe, cellTerms, List.mem_ite_nil_right, List.mem_singleton] at inCell
    exact ⟨winner, loser, inCell.2 ▸ ⟨rfl, rfl⟩⟩
  · right
    left
    split at draw
    · obtain ⟨player, _, virtual⟩ := Multiset.mem_sum.mp draw
      rcases Multiset.mem_cons.mp virtual with win | loss
      · exact ⟨player, win ▸ ⟨rfl, rfl⟩⟩
      · exact ⟨player, Multiset.mem_singleton.mp loss ▸ ⟨rfl, rfl⟩⟩
    · cases draw
  · exact .inr (.inr center)

theorem center_of_terms :
    (↑((ofTable table).terms prior draws) : Multiset (Term String ℝ)).filter
      (·.shape = .gaussian) = {Term.center (ofTable table).players.toList prior} := by
  have games : ∀ winner loser, (↑((ofTable table).cellTerms winner loser) :
      Multiset (Term String ℝ)).filter (·.shape = .gaussian) = 0 := by
    intro winner loser
    rw [cellTerms]
    split <;> rfl
  have virtual : ∀ player, ({virtualWin prior draws player, virtualLoss prior draws player} :
      Multiset (Term String ℝ)).filter (·.shape = .gaussian) = 0 := fun _ => rfl
  have center : (Term.center (ofTable table).players.toList prior).shape = .gaussian := rfl
  rw [terms_by_cells, Multiset.filter_add, Multiset.filter_add, Multiset.filter_singleton,
    if_pos center, filter_sum]
  simp only [filter_sum, games, Finset.sum_const_zero, zero_add]
  split
  · simp only [filter_sum, virtual, Finset.sum_const_zero, zero_add]
  · rfl

theorem center_shares (players : List String) :
    ((Term.center players prior).combo.map (·.2)).sum = if players = [] then 0 else 1 := by
  have equal : (Term.center players prior).combo.map (·.2) =
      List.replicate players.length (1 / ((max players.length 1 : ℕ) : ℝ)) := by
    change (players.map _).map _ = _
    rw [List.map_map]
    exact List.map_const' ..
  rw [equal, List.sum_replicate, nsmul_eq_mul]
  split
  · rename_i nobody
    rw [nobody]
    simp
  · rename_i somebody
    have positive : 0 < players.length := List.length_pos_iff.mpr somebody
    rw [max_eq_left positive]
    exact mul_one_div_cancel (Nat.cast_ne_zero.mpr positive.ne')

/-! ## The log posterior -/

theorem terms_without_draws {draws : ℝ} (none : draws ≤ 0) :
    (ofTable table).terms prior draws = (ofTable table).terms prior 0 := by
  rw [terms, terms, if_neg none.not_gt, if_neg (lt_irrefl 0)]

theorem log_posterior_forms {draws : ℝ} (nonneg : 0 ≤ draws)
    (strength : Fin (ofTable table).size → ℝ) :
    logPosterior table prior draws strength =
      (∑ winner, ∑ loser, (ofTable table).won winner loser *
        Real.log (Real.sigmoid (strength winner - strength loser)))
      + (if 0 < draws then ∑ player, draws / 2 *
          (Real.log (Real.sigmoid (strength player - strengthOf prior)) +
            Real.log (Real.sigmoid (strengthOf prior - strength player))) else 0)
      - 5000 * ((∑ player, strength player) / (ofTable table).size - strengthOf prior) ^ 2 := by
  have virtual : ∀ player, draws / 2 *
      (Real.log (Real.sigmoid (strength player - strengthOf prior)) +
        Real.log (Real.sigmoid (strengthOf prior - strength player))) =
      -(draws / 2 * drawLoss (strength player - strengthOf prior)) := by
    intro player
    rw [log_sigmoid, log_sigmoid, neg_sub, neg_sub, drawLoss, neg_sub]
    ring
  have noDraws : (if 0 < draws then
      ∑ player, -(draws / 2 * drawLoss (strength player - strengthOf prior)) else 0) =
        -(draws / 2 * ∑ player, drawLoss (strength player - strengthOf prior)) := by
    rw [Finset.sum_neg_distrib, Finset.mul_sum]
    rcases nonneg.eq_or_lt with rfl | drawn
    · simp
    · rw [if_pos drawn]
  simp only [virtual, noDraws]
  simp only [log_sigmoid, neg_sub, mul_neg, Finset.sum_neg_distrib]
  rw [logPosterior, meanAbove]
  ring

theorem log_posterior_of_names (strengths : String → ℝ) :
    let posterior := Posterior.ofTerms ((ofTable table).terms prior draws)
    let strength := fun player : Fin (ofTable table).size =>
      strengths ((ofTable table).players.get player)
    posterior.value Link.logistic (posterior.players.map strengths) =
      (∑ winner, ∑ loser, (ofTable table).won winner loser *
        Real.log (Real.sigmoid (strength winner - strength loser)))
      + (if 0 < draws then ∑ player, draws / 2 *
          (Real.log (Real.sigmoid (strength player - strengthOf prior)) +
            Real.log (Real.sigmoid (strengthOf prior - strength player))) else 0)
      - 5000 * ((∑ player, strength player) / (ofTable table).size - strengthOf prior) ^ 2 := by
  intro posterior strength
  have named : posterior.value Link.logistic (posterior.players.map strengths) =
      ((ofTable table).posterior prior draws).value Link.logistic
        ((ofTable table).players.map strengths) :=
    Posterior.of_names (players_of_terms table prior draws)
      (fun posterior => posterior.value Link.logistic (posterior.players.map strengths) = _) rfl
  have looked : ((ofTable table).players.map strengths).get = strength := by
    funext player
    simp [strength, Vector.get]
  rcases le_or_gt draws 0 with nothing | drawn
  · have undrawn : (ofTable table).posterior prior draws = (ofTable table).posterior prior 0 := by
      rw [ScoreMatrix.posterior, ScoreMatrix.posterior, terms_without_draws table prior nothing]
    rw [named, undrawn, value_of_table table prior le_rfl, looked,
      log_posterior_forms table prior le_rfl, if_neg (lt_irrefl 0), if_neg nothing.not_gt]
  · rw [named, value_of_table table prior drawn.le, looked,
      log_posterior_forms table prior drawn.le]

/-! ## Division -/

/-- A quotient with any value for a division by zero. -/
noncomputable def quotient (atZero : ℝ → ℝ) (dividend divisor : ℝ) : ℝ :=
  if divisor = 0 then atZero dividend else dividend / divisor

theorem quotient_of_ne {divisor : ℝ} (nonzero : divisor ≠ 0) (atZero : ℝ → ℝ) (dividend : ℝ) :
    quotient atZero dividend divisor = dividend / divisor := if_neg nonzero

@[reducible] noncomputable def dividing (atZero : ℝ → ℝ) : Scalar ℝ :=
  { (inferInstance : Scalar ℝ) with div := quotient atZero }

section Dividing

variable (atZero : ℝ → ℝ)

theorem elo_per_strength_divides :
    @Term.eloPerStrength ℝ (dividing atZero) = Term.eloPerStrength := by
  change quotient atZero 400.0 2.302585092994046 = _
  rw [quotient_of_ne (by norm_num)]
  rfl

/-- Players who never met are left out before their total is divided by. -/
theorem pair_terms_divide (matrix : ScoreMatrix) (first second : Fin matrix.size) :
    @pairTerms ℝ (dividing atZero) matrix first second = matrix.pairTerms first second := by
  unfold pairTerms
  change (if matrix.won first second + matrix.won second first ≤ 0 then []
    else Term.ofGames (matrix.players.get first) (matrix.players.get second)
      (matrix.won first second + matrix.won second first)
      (quotient atZero (matrix.won first second)
        (matrix.won first second + matrix.won second first))) = _
  split
  · rename_i nothing
    exact (if_pos nothing).symm
  · rename_i met
    rw [quotient_of_ne fun none => met none.le]
    exact (if_neg met).symm

theorem anchored_divides (player : String) :
    @Term.anchored String ℝ (dividing atZero) player draws prior =
      Term.anchored player draws prior := by
  unfold Term.anchored
  change (if draws ≤ 0 then [] else
    [(⟨[(player, 1)], -quotient atZero prior (@Term.eloPerStrength ℝ (dividing atZero)),
        0.5 * draws, .sigmoid⟩ : Term String ℝ),
      ⟨[(player, -1)], quotient atZero prior (@Term.eloPerStrength ℝ (dividing atZero)),
        0.5 * draws, .sigmoid⟩]) = _
  rw [elo_per_strength_divides, quotient_of_ne RatingList.elo_per_strength_ne]

theorem center_divides (players : List String) :
    @Term.center String ℝ (dividing atZero) players prior = Term.center players prior := by
  have somebody : ((max players.length 1 : ℕ) : ℝ) ≠ 0 := by positivity
  change (⟨players.map fun player =>
      (player, quotient atZero 1 ((max players.length 1 : ℕ) : ℝ)),
    quotient atZero (-prior) (@Term.eloPerStrength ℝ (dividing atZero)), 1e4, .gaussian⟩ :
      Term String ℝ) = _
  rw [elo_per_strength_divides, quotient_of_ne RatingList.elo_per_strength_ne,
    quotient_of_ne somebody]
  rfl

/-- No term depends on what a division by zero comes to. -/
theorem terms_divide (matrix : ScoreMatrix) :
    @terms ℝ (dividing atZero) matrix prior draws = matrix.terms prior draws := by
  change ((List.finRange matrix.size).flatMap fun first =>
      ((List.finRange matrix.size).filter (first < ·)).flatMap fun second =>
        @pairTerms ℝ (dividing atZero) matrix first second)
    ++ (if 0 < draws then matrix.players.toList.flatMap fun player =>
        @Term.anchored String ℝ (dividing atZero) player draws prior else [])
    ++ [@Term.center String ℝ (dividing atZero) matrix.players.toList prior] = _
  simp only [pair_terms_divide, anchored_divides, center_divides]
  rfl

end Dividing

/-- The terms of a table in any order. -/
noncomputable def termsOf (table : Crosstable) (prior draws : ℝ) : Multiset (Term String ℝ) :=
  ↑((ofTable table).terms prior draws)

abbrev nameOf {table : Crosstable} (player : Fin (ofTable table).size) : String :=
  (ofTable table).players.get player

/-- What the terms of a table are, and what they add up to. -/
structure TermsAreCells (table : Crosstable) (prior draws : ℝ) : Prop where
  games : ∀ winner loser : Fin (ofTable table).size,
    (termsOf table prior draws).filter (Term.ResultOf [nameOf winner, nameOf loser]) =
      if 0 < (ofTable table).won winner loser then
        {⟨[(nameOf winner, 1), (nameOf loser, -1)], 0, (ofTable table).won winner loser, .sigmoid⟩}
      else 0
  virtual : ∀ player : Fin (ofTable table).size,
    (termsOf table prior draws).filter (Term.ResultOf [nameOf player]) =
      if 0 < draws then
        {⟨[(nameOf player, 1)], -strengthOf prior, draws / 2, .sigmoid⟩,
          ⟨[(nameOf player, -1)], strengthOf prior, draws / 2, .sigmoid⟩}
      else 0
  mean : ∃ mean : Term String ℝ,
    (termsOf table prior draws).filter (·.shape = .gaussian) = {mean} ∧
      mean.combo.map (·.1) = table.players ∧ table.players.Nodup ∧
      (mean.combo.map (·.2)).sum = if table.players = [] then 0 else 1
  nothingElse : ∀ term ∈ termsOf table prior draws,
    (∃ winner loser : Fin (ofTable table).size, term.ResultOf [nameOf winner, nameOf loser]) ∨
      (∃ player : Fin (ofTable table).size, term.ResultOf [nameOf player]) ∨
      term.shape = .gaussian
  logPosterior : ∀ strengths : String → ℝ,
    let posterior := Posterior.ofTerms ((ofTable table).terms prior draws)
    let strength := fun player : Fin (ofTable table).size => strengths (nameOf player)
    posterior.value Link.logistic (posterior.players.map strengths) =
      (∑ winner, ∑ loser, (ofTable table).won winner loser *
        Real.log (Real.sigmoid (strength winner - strength loser)))
      + (if 0 < draws then ∑ player, draws / 2 *
          (Real.log (Real.sigmoid (strength player - strengthOf prior)) +
            Real.log (Real.sigmoid (strengthOf prior - strength player))) else 0)
      - 5000 * ((∑ player, strength player) / (ofTable table).size - strengthOf prior) ^ 2
  /-- No term depends on what a division by zero comes to. -/
  divides : ∀ atZero : ℝ → ℝ,
    @ScoreMatrix.terms ℝ (dividing atZero) (ofTable table) prior draws =
      (ofTable table).terms prior draws

/-- The terms of a table are its cells: one for every two players of whom the first won something
against the second, two virtual draws for each player if there are any, and one for the mean, which
names every player once and is empty if there is nobody. So the log posterior adds up, over all
ordered pairs, the logarithms of the winning probabilities, weighted with the cells, and the priors.
No term divides by zero. -/
theorem terms_are_the_cells : TermsAreCells table prior draws where
  games winner loser := by
    rw [termsOf, cell_results, cellTerms]
    split <;> rfl
  virtual player := by
    have half : draws / 2 = 0.5 * draws := by
      norm_num [div_eq_inv_mul]
    exact half ▸ virtual_results table prior draws player
  mean := ⟨_, center_of_terms table prior draws, center_names table prior, table.players_nodup,
    center_shares prior table.players⟩
  nothingElse term member := by
    rcases kinds_of_terms table prior draws (Multiset.mem_coe.mp member) with game | draw | center
    · exact .inl game
    · exact .inr (.inl draw)
    · exact .inr (.inr (center ▸ rfl))
  logPosterior := log_posterior_of_names table prior draws
  divides atZero := terms_divide prior draws atZero _

/-- Without players there is nothing for the weights of a mean to be shared by. -/
theorem mean_of_nobody_is_empty :
    ∃ mean ∈ (ofTable Crosstable.empty).terms (0 : ℝ) 0, mean.shape = .gaussian ∧
      (mean.combo.map (·.2)).sum ≠ 1 := by
  have nobody : (ofTable Crosstable.empty).players.toList = [] := by decide
  refine ⟨Term.center [] 0, ?_, rfl, ?_⟩
  · rw [terms, nobody]
    exact List.mem_append_right _ (List.mem_singleton_self _)
  · change (0 : ℝ) ≠ 1
    exact zero_ne_one

end ScoreMatrix

end KifuRatings
