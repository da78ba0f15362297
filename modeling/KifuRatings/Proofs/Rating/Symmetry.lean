import KifuRatings.Proofs.Rating.Groups
import KifuRatings.Proofs.Rating.VirtualDraws

/-!
# Players with the same results

Suppose that renumbering the players changes no score. Every sum over the terms then is the sum over
the renumbered terms, so gradient and precision do not change with the numbers as long as the
strengths do not. Pivots are chosen by number, but an accepted system has one solution only, so the
Newton step cannot depend on their choice. The climb starts with equal strengths and keeps those of
exchanged players equal; the inverse at its end is unique as well. Such players are rated alike.
-/

namespace KifuRatings

open Matrix

theorem mul_renumbered {size : Nat} {matrix : Matrix (Fin size) (Fin size) ℝ}
    {renumber : Equiv.Perm (Fin size)}
    (kept : ∀ row column, matrix (renumber row) (renumber column) = matrix row column)
    (values : Fin size → ℝ) :
    matrix *ᵥ (values ∘ renumber) = (matrix *ᵥ values) ∘ renumber := by
  funext row
  calc
    (matrix *ᵥ (values ∘ renumber)) row =
        ∑ column, matrix (renumber row) (renumber column) * values (renumber column) := by
      simp only [mulVec, dotProduct, kept, Function.comp_apply]
    _ = ∑ column, matrix (renumber row) column * values column :=
      Equiv.sum_comp renumber fun column => matrix (renumber row) column * values column

namespace Term

variable {size : Nat} (renumber : Equiv.Perm (Fin size))

def renumbered (term : Term (Fin size) ℝ) : Term (Fin size) ℝ :=
  { term with combo := term.combo.map fun share => (renumber share.1, share.2) }

theorem coefficient_renumbered (term : Term (Fin size) ℝ) (player : Fin size) :
    (term.renumbered renumber).coefficient (renumber player) = term.coefficient player := by
  unfold coefficient renumbered
  rw [List.map_map]
  apply sum_map_congr
  intro share _
  simp only [Function.comp_apply, renumber.injective.eq_iff]

theorem along_renumbered (term : Term (Fin size) ℝ) (direction : Fin size → ℝ) :
    (term.renumbered renumber).along direction = term.along (direction ∘ renumber) := by
  unfold along
  rw [← Equiv.sum_comp renumber]
  simp only [coefficient_renumbered, Function.comp_apply]

theorem renumbered_anchored (player : Fin size) (games elo : ℝ) :
    (anchored player games elo).map (renumbered renumber) =
      anchored (renumber player) games elo := by
  unfold anchored
  split
  · rfl
  · rfl

theorem coefficient_renumbered_center (elo : ℝ) :
    ((center (List.finRange size) elo).renumbered renumber).coefficient =
      (center (List.finRange size) elo).coefficient := by
  funext player
  rw [← renumber.apply_symm_apply player, coefficient_renumbered, coefficient_center,
    coefficient_center]

end Term

namespace ScoreMatrix

def Symmetric (matrix : ScoreMatrix) (renumber : Equiv.Perm (Fin matrix.size)) : Prop :=
  ∀ row column, matrix.cell (renumber row) (renumber column) = matrix.cell row column

instance (matrix : ScoreMatrix) (renumber : Equiv.Perm (Fin matrix.size)) :
    Decidable (matrix.Symmetric renumber) :=
  inferInstanceAs (Decidable (∀ row column,
    matrix.cell (renumber row) (renumber column) = matrix.cell row column))

variable {table : Crosstable} {renumber : Equiv.Perm (Fin (ofTable table).size)}
  (symmetric : (ofTable table).Symmetric renumber) (link : Link ℝ) (prior draws : ℝ)
  {strengths : Vector ℝ (ofTable table).size}

include symmetric

theorem won_renumbered (winner loser : Fin (ofTable table).size) :
    (ofTable table).won (renumber winner) (renumber loser) = (ofTable table).won winner loser := by
  rw [won, symmetric]
  rfl

/-- The renumbered terms are the terms, but that the mean is taken in another order. -/
theorem sum_renumbered_terms {value : Term (Fin (ofTable table).size) ℝ → ℝ}
    (unordered :
      value ((Term.center (List.finRange (ofTable table).size) prior).renumbered renumber) =
        value (Term.center (List.finRange (ofTable table).size) prior)) :
    (((ofTable table).posterior prior draws).terms.map value).sum =
      (((ofTable table).posterior prior draws).terms.map fun term =>
        value (term.renumbered renumber)).sum := by
  rw [sum_terms, sum_terms, unordered]
  congr 2
  · rw [← Equiv.sum_comp renumber]
    apply Finset.sum_congr rfl
    intro winner _
    rw [← Equiv.sum_comp renumber]
    simp only [won_renumbered symmetric]
    rfl
  · split
    · rw [← Equiv.sum_comp renumber]
      simp only [← Term.renumbered_anchored, List.map_map]
      rfl
    · rfl

variable (alike : strengths.get ∘ renumber = strengths.get)

include alike

omit symmetric in
theorem combination_renumbered (term : Term (Fin (ofTable table).size) ℝ) :
    Posterior.combination strengths (term.renumbered renumber) =
      Posterior.combination strengths term := by
  rw [Posterior.combination_eq, Posterior.combination_eq, Term.along_renumbered, alike]
  rfl

theorem gradient_renumbered :
    (((ofTable table).posterior prior draws).gradient link strengths).get ∘ renumber =
      (((ofTable table).posterior prior draws).gradient link strengths).get := by
  funext player
  rw [Function.comp_apply, Posterior.gradient_get, Posterior.gradient_get,
    sum_renumbered_terms symmetric]
  · apply sum_map_congr
    intro term _
    rw [combination_renumbered alike, Term.coefficient_renumbered]
    rfl
  · rw [combination_renumbered alike, Term.coefficient_renumbered_center]
    rfl

theorem precision_renumbered (row column : Fin (ofTable table).size) :
    (((ofTable table).posterior prior draws).precision link strengths).toMatrix
        (renumber row) (renumber column) =
      (((ofTable table).posterior prior draws).precision link strengths).toMatrix row column := by
  change Grid.entry _ _ _ = Grid.entry _ _ _
  rw [Posterior.precision_entry, Posterior.precision_entry, sum_renumbered_terms symmetric]
  · apply sum_map_congr
    intro term _
    rw [combination_renumbered alike, Term.coefficient_renumbered, Term.coefficient_renumbered]
    rfl
  · rw [combination_renumbered alike, Term.coefficient_renumbered_center]
    rfl

/-- The only solution of a symmetric system is symmetric. -/
theorem newton_step_renumbered {step : Vector ℝ (ofTable table).size}
    (found : Fit.newtonStep link ((ofTable table).posterior prior draws) strengths = some step) :
    step.get ∘ renumber = step.get := by
  apply (Grid.solve_unique found _).mp
  rw [mul_renumbered (precision_renumbered symmetric link prior draws alike),
    (Grid.solve_unique found step.get).mpr rfl,
    gradient_renumbered symmetric link prior draws alike]

theorem inverse_renumbered {inverse : Grid ℝ (ofTable table).size}
    (inverted : (((ofTable table).posterior prior draws).precision link strengths).inverse =
      some inverse) (row column : Fin (ofTable table).size) :
    inverse.entry (renumber row) (renumber column) = inverse.entry row column := by
  let image (row : Fin (ofTable table).size) : ℝ := inverse.entry row (renumber column)
  have solves := (Grid.inverse_unique inverted (renumber column) image).mpr rfl
  have moved : (Pi.single (renumber column) 1 : Fin (ofTable table).size → ℝ) ∘ renumber =
      Pi.single column 1 := by
    funext row
    simp only [Function.comp_apply, Pi.single_apply, renumber.injective.eq_iff]
  have same := (Grid.inverse_unique inverted column (image ∘ renumber)).mp (by
    rw [mul_renumbered (precision_renumbered symmetric link prior draws alike), solves, moved])
  exact congrFun same row

omit alike in
/-- Wherever the climb comes, exchanged players are equally strong. -/
theorem visited_renumbered {last : Fit.Position ℝ (ofTable table).size}
    (visits : Fit.Visits link ((ofTable table).posterior prior draws)
      (Fit.startPosition link ((ofTable table).posterior prior draws)) last) :
    last.strengths.get ∘ renumber = last.strengths.get := by
  induction visits with
  | refl =>
      funext player
      rw [Function.comp_apply, Fit.start_strengths_get, Fit.start_strengths_get]
  | @tail start reached _ climbs induction =>
      obtain ⟨step, found, same⟩ := climbs
      obtain ⟨taken, isShift⟩ := Fit.line_search_reached start step Fit.maxHalvings 1
      have stepped : ∀ player, reached.strengths.get player =
          start.strengths.get player + taken * step.get player := by
        intro player
        rw [same, isShift]
        exact Fit.get_shift _ _ _ _
      have alikeStep := newton_step_renumbered symmetric link prior draws induction found
      funext player
      rw [Function.comp_apply, stepped, stepped, ← Function.comp_apply (f := step.get),
        ← Function.comp_apply (f := start.strengths.get), induction, alikeStep]

end ScoreMatrix

/-! ## The ratings of exchanged players -/

namespace RatingList

theorem holds_of_find_fin_index {α : Type} {size : Nat} {items : Vector α size} {holds : α → Bool}
    {index : Fin size} (found : items.findFinIdx? holds = some index) :
    holds (items.get index) = true := by
  obtain ⟨place, inArray, rfl⟩ := Option.map_eq_some_iff.mp found
  exact (Array.findFinIdx?_eq_some_iff.mp inArray).1

theorem find_of_strengths {size : Nat} {players : Vector String size}
    (different : Function.Injective players.get) (strengths : Vector ℝ size)
    (covariance : Grid ℝ size) (player : Fin size) :
    (ofStrengths players strengths covariance).find? (players.get player) =
      some ((ofStrengths players strengths covariance).entries.get player) := by
  let ratings := ofStrengths players strengths covariance
  have named : ∀ other : Fin size, (ratings.entries.get other).name = players.get other := by
    intro other
    change (Vector.get (Vector.ofFn _) other : Rating ℝ).name = _
    rw [Vector.get_ofFn]
  have found : ratings.index? (players.get player) = some player := by
    cases looked : ratings.index? (players.get player) with
    | none =>
        have nobody := Vector.findFinIdx?_eq_none_iff.mp looked (ratings.entries.get player)
          (Vector.getElem_mem _)
        exact absurd (beq_iff_eq.mpr (named player)) nobody
    | some other =>
        have chosen := @holds_of_find_fin_index _ _ ratings.entries
          (fun entry => entry.name == players.get player) other looked
        have sameName := (named other).symm.trans (beq_iff_eq.mp chosen)
        exact congrArg some (different sameName)
  rw [find?, found]
  rfl

end RatingList

namespace Crosstable

open ScoreMatrix

/-- Players who can be exchanged without changing a score have one rating and one error. -/
theorem exchanged_players_are_rated_alike (table : Crosstable)
    {renumber : Equiv.Perm (Fin (ofTable table).size)}
    (symmetric : (ofTable table).Symmetric renumber) (link : Link ℝ) (settings : FitSettings ℝ)
    (prior draws : ℝ) {ratings : RatingList ℝ}
    (rated : table.rate link settings prior draws = .ok ratings)
    (player : Fin (ofTable table).size) :
    ∃ one other, ratings.find? ((ofTable table).players.get player) = some one ∧
      ratings.find? ((ofTable table).players.get (renumber player)) = some other ∧
      other.elo = one.elo ∧ other.stderr = one.stderr := by
  rw [rate_eq] at rated
  split at rated
  · cases rated
  · obtain ⟨last, covariance, visits, inverted, rfl⟩ := Fit.ratings_of_eq_ok rated
    have alike := visited_renumbered symmetric link prior draws visits
    have strength : last.strengths.get (renumber player) = last.strengths.get player :=
      congrFun alike player
    have variance := inverse_renumbered symmetric link prior draws alike inverted player player
    refine ⟨_, _, RatingList.find_of_strengths player_injective _ _ player,
      RatingList.find_of_strengths player_injective _ _ (renumber player), ?_, ?_⟩
    · simp only [RatingList.ofStrengths, Vector.get_ofFn, strength]
    · simp only [RatingList.ofStrengths, Vector.get_ofFn, variance]

/-! ## Even tables -/

section Even

variable {table : Crosstable} {draws : ℝ} (drawn : 0 < draws)
  (even : ∀ player opponent,
    (ofTable table).won player opponent = (ofTable table).won opponent player)

noncomputable abbrev equalStrengths (table : Crosstable) : Vector ℝ (ofTable table).size :=
  Vector.replicate _ 0

@[simp]
theorem equal_strengths_get (player : Fin (ofTable table).size) :
    (equalStrengths table).get player = 0 := by
  rw [Vector.get_replicate]

include drawn

theorem accepted_at_prior (somebody : table.players ≠ [])
    (firm : neglectedWeight table draws < draws / 4) :
    Fit.newtonStep Link.logistic ((ofTable table).posterior 0 draws) (equalStrengths table) ≠ none ∧
      (((ofTable table).posterior 0 draws).precision Link.logistic (equalStrengths table)).inverse ≠
        none := by
  apply accepted_of_bent table 0 drawn (List.length_pos_iff.mpr somebody)
  intro player
  rw [equal_strengths_get, strength_of_zero, sub_zero, Logistic.bend_zero, ← div_eq_mul_one_div]
  exact firm

include even

/-- If everybody won as much as lost against everybody, nothing moves players off the prior. -/
theorem gradient_of_even :
    (((ofTable table).posterior 0 draws).gradient Link.logistic (equalStrengths table)).get =
      0 := by
  apply dotProduct_eq_zero
  intro direction
  let share (winner loser : Fin (ofTable table).size) : ℝ :=
    (ofTable table).won winner loser / 2 * (direction winner - direction loser)
  have games : ∀ (winner loser : Fin (ofTable table).size) (weight : ℝ),
      (Term.wins winner loser weight).slope Link.logistic
          (Posterior.combination (equalStrengths table) (Term.wins winner loser weight)) *
        (Term.wins winner loser weight).along direction =
          weight / 2 * (direction winner - direction loser) := by
    intro winner loser weight
    rw [combination_wins, equal_strengths_get, equal_strengths_get, sub_self, Term.along_wins,
      Term.wins, Term.slope_sigmoid, neg_zero, Real.sigmoid_zero, div_eq_mul_inv]
  have center : Term.slope (Link.logistic : Link ℝ)
      (Term.center (List.finRange (ofTable table).size) 0)
        (meanAbove 0 (equalStrengths table).get) = 0 := by
    have mean : meanAbove 0 (equalStrengths table).get = 0 := by
      simp only [meanAbove, equal_strengths_get, Finset.sum_const_zero, zero_div, strength_of_zero,
        sub_zero]
    rw [mean]
    exact mul_zero _
  have anchors : ∀ player, 0.5 * draws * Real.sigmoid 0 * (1 * direction player) +
      0.5 * draws * Real.sigmoid 0 * (-1 * direction player) = 0 := by
    intro player
    ring
  have opposite : ∀ winner loser, share winner loser = -share loser winner := by
    intro winner loser
    simp only [share]
    rw [even winner loser]
    ring
  rw [dotProduct_comm, Posterior.dot_gradient, sum_with_draws table 0 draws drawn.le]
  · simp only [games, combination_single, combination_center, Term.slope_sigmoid, Term.along_single,
      equal_strengths_get, strength_of_zero, center, anchors, zero_mul, add_zero, mul_zero,
      neg_zero, Finset.sum_const_zero]
    exact sum_of_opposite opposite
  · intro combo offset
    rw [Term.slope_sigmoid, zero_mul, zero_mul]

theorem even_table_is_rated (somebody : table.players ≠ [])
    (firm : neglectedWeight table draws < draws / 4) {settings : FitSettings ℝ}
    (some : 0 < settings.maxIterations) (tolerant : 0 < settings.tolerance) :
    ∃ covariance, table.rate Link.logistic settings 0 draws =
      .ok (RatingList.ofStrengths (ofTable table).players (equalStrengths table) covariance) := by
  obtain ⟨steps, inverts⟩ := accepted_at_prior drawn somebody firm
  obtain ⟨step, found⟩ := Option.ne_none_iff_exists'.mp steps
  obtain ⟨covariance, inverted⟩ := Option.ne_none_iff_exists'.mp inverts
  have still : step.get = 0 := by
    symm
    apply (Grid.solve_unique found 0).mp
    rw [mulVec_zero, gradient_of_even drawn even]
  use covariance
  rw [rate_eq, List.isEmpty_eq_false_iff.mpr somebody]
  exact Fit.ratings_of_still some tolerant found still inverted

end Even

def otherPair : Equiv.Perm (Fin (ofTable twoPairs).size) where
  toFun player := ⟨(player.val + 2) % 4, Nat.mod_lt _ (by decide)⟩
  invFun player := ⟨(player.val + 2) % 4, Nat.mod_lt _ (by decide)⟩
  left_inv := by decide +kernel
  right_inv := by decide +kernel

theorem two_pairs_are_rated_alike : ∃ (ratings : RatingList ℝ) (one other : Rating ℝ),
    (ofTable twoPairs).Symmetric otherPair ∧
    twoPairs.rate Link.logistic Fit.defaultSettings 0 1 = .ok ratings ∧
    ratings.find? "a" = some one ∧ ratings.find? "c" = some other ∧
    other.elo = one.elo ∧ other.stderr = one.stderr := by
  have symmetric : (ofTable twoPairs).Symmetric otherPair := by decide +kernel
  have even : ∀ player opponent, (ofTable twoPairs).won player opponent =
      (ofTable twoPairs).won opponent player := by
    have cells : ∀ player opponent, (ofTable twoPairs).cell player opponent =
        (ofTable twoPairs).cell opponent player := by decide +kernel
    intro player opponent
    rw [won, cells]
    rfl
  have firm : neglectedWeight twoPairs 1 < 1 / 4 := by
    rw [neglectedWeight, entryBound, two_pairs_won, two_pairs_size]
    change _ * ((1e-12 : ℝ) * _) < _
    norm_num
  have tolerant : 0 < (Fit.defaultSettings : FitSettings ℝ).tolerance := by norm_num
  have somebody : twoPairs.players ≠ [] := by decide +kernel
  obtain ⟨covariance, rated⟩ := even_table_is_rated one_pos even somebody firm
    (Nat.zero_lt_succ 199) tolerant
  obtain ⟨one, other, found, foundOther, elo, stderr⟩ :=
    exchanged_players_are_rated_alike twoPairs symmetric Link.logistic Fit.defaultSettings 0 1 rated
      ⟨0, by decide⟩
  exact ⟨_, one, other, symmetric, rated, found, foundOther, elo, stderr⟩

end Crosstable

end KifuRatings
