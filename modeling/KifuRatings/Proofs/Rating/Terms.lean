import KifuRatings.Proofs.Rating.Derivatives
import KifuRatings.Proofs.Rating.Names

/-!
# The terms of a score matrix

The ratings of a table are fitted to terms that name players. Names lead back to the numbers that
players have in the matrix, and every cell of the matrix that is not zero has one term of its own.
So a sum over the terms is a sum over the cells, the players and the one term for the mean.
-/

namespace KifuRatings

@[simp]
theorem Score.to_scalar_exact (score : Score) : (score.toScalar : ℝ) = score.halves / 2 := by
  have product : (score.toScalar : ℝ) = score.halves * 0.5 := rfl
  rw [product]
  norm_num [div_eq_mul_inv]

/-- What holds of the posterior over the names that terms mention, once these are known, holds of
the posterior of the terms. -/
theorem Posterior.of_names {terms : List (Term String ℝ)} {players : List String}
    (same : playersOf terms = players) (holds : ∀ {size : Nat}, Posterior ℝ size → Prop)
    (placed : holds (⟨⟨players.toArray, rfl⟩, terms.map (place ⟨players.toArray, rfl⟩)⟩ :
      Posterior ℝ players.length)) : holds (ofTerms terms) := by
  subst same
  exact placed

namespace Fit

variable {size : Nat}

noncomputable def ratingsAt (link : Link ℝ) (posterior : Posterior ℝ size)
    (strengths : Vector ℝ size) : Except FitError (RatingList ℝ) :=
  match (posterior.precision link strengths).inverse with
  | none => .error .singularSystem
  | some covariance => .ok (RatingList.ofStrengths posterior.players strengths covariance)

noncomputable def ratingsOf (link : Link ℝ) (settings : FitSettings ℝ)
    (posterior : Posterior ℝ size) : Except FitError (RatingList ℝ) :=
  search link settings posterior >>= ratingsAt link posterior

theorem estimate_eq (link : Link ℝ) (settings : FitSettings ℝ) {terms : List (Term String ℝ)}
    {players : List String} (same : Posterior.playersOf terms = players) :
    estimate link settings terms =
      if players.isEmpty then .error .noPlayers
      else ratingsOf link settings
        (⟨⟨players.toArray, rfl⟩, terms.map (Posterior.place ⟨players.toArray, rfl⟩)⟩ :
          Posterior ℝ players.length) := by
  subst same
  unfold estimate
  cases (Posterior.playersOf terms).isEmpty with
  | true => rfl
  | false =>
      simp only [Bool.false_eq_true, if_false]
      apply bind_congr
      intro strengths
      change _ = ratingsAt link (Posterior.ofTerms terms) strengths
      unfold ratingsAt
      cases ((Posterior.ofTerms terms).precision link strengths).inverse with
      | none => rfl
      | some covariance => rfl

end Fit

/-! ## What the terms of the rating model do to a direction -/

namespace Term

variable {size : Nat}

@[simp]
theorem along_wins (winner loser : Fin size) (weight : ℝ) (direction : Fin size → ℝ) :
    (wins winner loser weight).along direction = direction winner - direction loser := by
  rw [← sum_combo]
  simp [wins, sub_eq_add_neg]

theorem anchored_eq {ρ : Type} (player : ρ) {games : ℝ} (some : 0 < games) (elo : ℝ) :
    anchored player games elo =
      [⟨[(player, 1)], -(elo / eloPerStrength), 0.5 * games, .sigmoid⟩,
        ⟨[(player, -1)], elo / eloPerStrength, 0.5 * games, .sigmoid⟩] :=
  if_neg some.not_ge

@[simp]
theorem along_single (player : Fin size) (sign offset weight : ℝ) (shape : Shape)
    (direction : Fin size → ℝ) :
    (⟨[(player, sign)], offset, weight, shape⟩ : Term (Fin size) ℝ).along direction =
      sign * direction player := by
  rw [← sum_combo]
  simp

theorem center_combo (players : List (Fin size)) (elo : ℝ) :
    (center players elo).combo =
      players.map fun player => (player, 1 / ((max players.length 1 : ℕ) : ℝ)) := rfl

theorem coefficient_center (player : Fin size) (elo : ℝ) :
    (center (List.finRange size) elo).coefficient player = 1 / size := by
  have somebody : max size 1 = size := max_eq_left player.pos
  rw [coefficient, center_combo, List.map_map, List.length_finRange, somebody]
  have pick : ((fun share : Fin size × ℝ => if share.1 = player then share.2 else 0) ∘
      fun other => (other, 1 / (size : ℝ))) =
        fun other => if other = player then 1 / (size : ℝ) else 0 := rfl
  rw [pick, ← Fin.sum_univ_def, Finset.sum_ite_eq' , if_pos (Finset.mem_univ player)]

@[simp]
theorem along_center (elo : ℝ) (direction : Fin size → ℝ) :
    (center (List.finRange size) elo).along direction = (∑ player, direction player) / size := by
  simp only [along, coefficient_center, ← Finset.mul_sum]
  rw [one_div_mul_eq_div]

end Term

namespace ScoreMatrix

noncomputable def posterior (matrix : ScoreMatrix) (prior draws : ℝ) : Posterior ℝ matrix.size where
  players := matrix.players
  terms := (matrix.terms prior draws).map (Posterior.place matrix.players)

noncomputable def won (matrix : ScoreMatrix) (player opponent : Fin matrix.size) : ℝ :=
  (matrix.cell player opponent).toScalar

noncomputable def totalWon (table : Crosstable) : ℝ :=
  ∑ winner, ∑ loser, (ofTable table).won winner loser

noncomputable def gameTerms (matrix : ScoreMatrix) (first second : Fin matrix.size) :
    List (Term (Fin matrix.size) ℝ) :=
  (if 0 < matrix.won first second then
      [Term.wins first second (matrix.won first second)] else [])
    ++ if 0 < matrix.won second first then
      [Term.wins second first (matrix.won second first)] else []

variable (table : Crosstable) (prior draws : ℝ)

theorem won_nonneg (matrix : ScoreMatrix) (player opponent : Fin matrix.size) :
    0 ≤ matrix.won player opponent := by
  rw [won, Score.to_scalar_exact]
  positivity

@[simp]
theorem won_alone (player : Fin (ofTable table).size) : (ofTable table).won player player = 0 := by
  rw [won, cell_of_table, if_pos rfl, Score.to_scalar_exact]
  simp [Score.zero]

theorem total_won_eq {table : Crosstable} (fits : table.played < 2 ^ 32) :
    totalWon table = table.played - table.gamesAlone := by
  have counted := sum_halves fits
  have halves : totalWon table =
      ((∑ winner, ∑ loser, ((ofTable table).cell winner loser).halves : ℕ) : ℝ) / 2 := by
    simp only [totalWon, won, Score.to_scalar_exact, ← Finset.sum_div]
    push_cast
    rfl
  rw [halves]
  have cast := congrArg (Nat.cast : ℕ → ℝ) counted
  push_cast at cast
  push_cast
  linarith

@[simp]
theorem place_name (player : Fin (ofTable table).size) :
    (ofTable table).players.finIdxOf? ((ofTable table).players.get player) = some player :=
  index_of_player player

theorem place_wins (winner loser : Fin (ofTable table).size) (weight : ℝ) :
    Posterior.place (ofTable table).players (Term.wins ((ofTable table).players.get winner)
      ((ofTable table).players.get loser) weight) = Term.wins winner loser weight := by
  simp [Posterior.place, Term.wins]

noncomputable def cellTerms (matrix : ScoreMatrix) (winner loser : Fin matrix.size) :
    List (Term String ℝ) :=
  if 0 < matrix.won winner loser then
    [Term.wins (matrix.players.get winner) (matrix.players.get loser) (matrix.won winner loser)]
  else []

/-- The part of the games that was won comes back as a number of wins. -/
theorem pair_terms_exact (matrix : ScoreMatrix) (first second : Fin matrix.size) :
    matrix.pairTerms first second = matrix.cellTerms first second ++ matrix.cellTerms second first := by
  have firstNonneg := matrix.won_nonneg first second
  have secondNonneg := matrix.won_nonneg second first
  have total : matrix.pairTerms first second =
      if matrix.won first second + matrix.won second first ≤ 0 then []
      else Term.ofGames (matrix.players.get first) (matrix.players.get second)
        (matrix.won first second + matrix.won second first)
        (matrix.won first second / (matrix.won first second + matrix.won second first)) := rfl
  rw [total, cellTerms, cellTerms]
  split
  · rename_i nothing
    rw [if_neg (by linarith), if_neg (by linarith)]
    rfl
  · rename_i met
    have games : matrix.won first second + matrix.won second first ≠ 0 := by
      linarith
    have firstWon : (matrix.won first second + matrix.won second first) *
        (matrix.won first second / (matrix.won first second + matrix.won second first)) =
          matrix.won first second := mul_div_cancel₀ _ games
    have secondWon : (matrix.won first second + matrix.won second first) *
        (1 - matrix.won first second / (matrix.won first second + matrix.won second first)) =
          matrix.won second first := by
      rw [mul_sub, firstWon, mul_one, add_sub_cancel_left]
    rw [Term.ofGames, firstWon, secondWon]

theorem place_cell (winner loser : Fin (ofTable table).size) :
    ((ofTable table).cellTerms winner loser).map (Posterior.place (ofTable table).players) =
      if 0 < (ofTable table).won winner loser then
        [Term.wins winner loser ((ofTable table).won winner loser)] else [] := by
  rw [cellTerms]
  split
  · rw [List.map_singleton, place_wins]
  · rfl

theorem place_games (first second : Fin (ofTable table).size) :
    ((ofTable table).pairTerms first second).map (Posterior.place (ofTable table).players) =
      (ofTable table).gameTerms first second := by
  rw [pair_terms_exact, List.map_append, place_cell, place_cell, gameTerms]

theorem place_anchored (player : Fin (ofTable table).size) :
    (Term.anchored ((ofTable table).players.get player) draws prior).map
        (Posterior.place (ofTable table).players) = Term.anchored player draws prior := by
  unfold Term.anchored
  split
  · rfl
  · simp [Posterior.place]

theorem players_listed :
    (ofTable table).players.toList =
      (List.finRange (ofTable table).size).map (ofTable table).players.get :=
  to_list_eq_map _

theorem place_center :
    Posterior.place (ofTable table).players (Term.center (ofTable table).players.toList prior) =
      Term.center (List.finRange (ofTable table).size) prior := by
  rw [players_listed]
  unfold Posterior.place Term.center
  simp only [List.length_map, List.filterMap_map]
  congr 1
  rw [← List.filterMap_eq_map]
  apply List.filterMap_congr
  intro player _
  simp only [Function.comp_apply, place_name]
  rfl

theorem terms_of_table :
    ((ofTable table).posterior prior draws).terms =
      ((List.finRange (ofTable table).size).flatMap fun first =>
        ((List.finRange (ofTable table).size).filter (first < ·)).flatMap fun second =>
          (ofTable table).gameTerms first second)
      ++ (if 0 < draws then
          (List.finRange (ofTable table).size).flatMap (Term.anchored · draws prior) else [])
      ++ [Term.center (List.finRange (ofTable table).size) prior] := by
  unfold posterior terms
  simp only [List.map_append, List.map_flatMap, place_games]
  congr 1
  · congr 1
    split
    · rw [players_listed, List.flatMap_map, List.map_flatMap]
      simp only [place_anchored]
    · rfl
  · rw [List.map_singleton, place_center]

theorem mem_terms {term : Term (Fin (ofTable table).size) ℝ}
    (member : term ∈ ((ofTable table).posterior prior draws).terms) :
    (∃ winner loser, 0 < (ofTable table).won winner loser ∧
      term = Term.wins winner loser ((ofTable table).won winner loser)) ∨
    (0 < draws ∧ ∃ player, term ∈ Term.anchored player draws prior) ∨
    term = Term.center (List.finRange (ofTable table).size) prior := by
  rw [terms_of_table, List.mem_append, List.mem_append, List.mem_singleton] at member
  rcases member with (game | draw) | center
  · left
    simp only [List.mem_flatMap, gameTerms, List.mem_append, List.mem_ite_nil_right,
      List.mem_singleton] at game
    obtain ⟨first, _, second, _, one | other⟩ := game
    · exact ⟨first, second, one⟩
    · exact ⟨second, first, other⟩
  · right
    left
    rw [List.mem_ite_nil_right] at draw
    obtain ⟨player, _, anchor⟩ := List.mem_flatMap.mp draw.2
    exact ⟨draw.1, player, anchor⟩
  · exact .inr (.inr center)

variable {draws} in
theorem mem_terms_of_anchored (drawn : 0 < draws) {player : Fin (ofTable table).size}
    {term : Term (Fin (ofTable table).size) ℝ} (anchor : term ∈ Term.anchored player draws prior) :
    term ∈ ((ofTable table).posterior prior draws).terms := by
  rw [terms_of_table, if_pos drawn]
  apply List.mem_append_left
  apply List.mem_append_right
  exact List.mem_flatMap.mpr ⟨player, List.mem_finRange player, anchor⟩

variable {table prior draws} in
/-- A term of a table is some won games, one side of a player's draws, or the prior for the mean. -/
theorem mem_named_terms {term : Term String ℝ}
    (member : term ∈ (ofTable table).terms prior draws) :
    (∃ winner loser weight, 0 < weight ∧ term = Term.wins winner loser weight) ∨
    (0 < draws ∧ ∃ player, term ∈ Term.anchored player draws prior) ∨
    term = Term.center (ofTable table).players.toList prior := by
  unfold terms at member
  rw [List.mem_append, List.mem_append, List.mem_singleton] at member
  rcases member with (game | draw) | center
  · left
    obtain ⟨first, _, inRow⟩ := List.mem_flatMap.mp game
    obtain ⟨second, _, inCell⟩ := List.mem_flatMap.mp inRow
    simp only [pairTerms, List.mem_ite_nil_left, Term.ofGames, List.mem_append,
      List.mem_ite_nil_right, List.mem_singleton] at inCell
    rcases inCell.2 with ⟨won, same⟩ | ⟨lost, same⟩
    · exact ⟨_, _, _, won, same⟩
    · exact ⟨_, _, _, lost, same⟩
  · right
    left
    obtain ⟨drawn, listed⟩ := List.mem_ite_nil_right.mp draw
    obtain ⟨player, _, anchor⟩ := List.mem_flatMap.mp listed
    exact ⟨drawn, player, anchor⟩
  · exact .inr (.inr center)

theorem weight_nonneg :
    ∀ term ∈ (ofTable table).terms prior draws, 0 ≤ term.weight := by
  intro term member
  rcases mem_named_terms member with ⟨_, _, _, won, rfl⟩ | ⟨drawn, player, anchor⟩ | rfl
  · exact won.le
  · have half : 0 ≤ 0.5 * draws := mul_nonneg (by norm_num) drawn.le
    rw [Term.anchored_eq player drawn, List.mem_pair] at anchor
    rcases anchor with rfl | rfl
    · exact half
    · exact half
  · change (0 : ℝ) ≤ 1e4
    norm_num

theorem placed_weight_nonneg :
    ∀ term ∈ ((ofTable table).posterior prior draws).terms, 0 ≤ term.weight := by
  intro placed member
  obtain ⟨term, listed, rfl⟩ := List.mem_map.mp member
  exact weight_nonneg table prior draws term listed

/-! ## Sums over the terms -/

theorem sum_of_all {size : Nat} {M : Type} [AddCommMonoid M] (value : Fin size → M) :
    ((List.finRange size).map value).sum = ∑ index, value index :=
  (Fin.sum_univ_def value).symm

theorem sum_map_filter {ι M : Type} [AddCommMonoid M] (items : List ι) (keep : ι → Prop)
    [DecidablePred keep] (value : ι → M) : ((items.filter keep).map value).sum =
      (items.map fun item => if keep item then value item else 0).sum := by
  induction items with
  | nil => rfl
  | cons item items induction =>
      by_cases kept : keep item
      · simp [kept, induction]
      · simp [kept, induction]

/-- Going through the pairs above the diagonal, with both orders of each, is going through all
pairs but those on the diagonal. -/
theorem sum_above_diagonal {size : Nat} {M : Type} [AddCommMonoid M]
    {value : Fin size → Fin size → M}
    (diagonal : ∀ index, value index index = 0) :
    (∑ first, ∑ second, if first < second then value first second + value second first else 0) =
      ∑ first, ∑ second, value first second := by
  have both : ∀ first second : Fin size,
      (if first < second then value first second + value second first else 0) =
        (if first < second then value first second else 0) +
          if first < second then value second first else 0 := by
    intro first second
    split <;> simp
  have mirrored : (∑ first, ∑ second, if first < second then value second first else 0) =
      ∑ first, ∑ second, if second < first then value first second else 0 := Finset.sum_comm
  simp only [both, Finset.sum_add_distrib]
  rw [mirrored]
  simp only [← Finset.sum_add_distrib]
  apply Finset.sum_congr rfl
  intro first _
  apply Finset.sum_congr rfl
  intro second _
  rcases lt_trichotomy first second with below | same | above
  · simp [below, below.not_gt]
  · simp [same, diagonal]
  · simp [above, above.not_gt]

theorem sum_terms (value : Term (Fin (ofTable table).size) ℝ → ℝ) :
    (((ofTable table).posterior prior draws).terms.map value).sum =
      (∑ winner, ∑ loser, if 0 < (ofTable table).won winner loser then
        value (Term.wins winner loser ((ofTable table).won winner loser)) else 0)
      + (if 0 < draws then ∑ player, ((Term.anchored player draws prior).map value).sum else 0)
      + value (Term.center (List.finRange (ofTable table).size) prior) := by
  let one (winner loser : Fin (ofTable table).size) : ℝ :=
    if 0 < (ofTable table).won winner loser then
      value (Term.wins winner loser ((ofTable table).won winner loser)) else 0
  have games : ∀ first second, (((ofTable table).gameTerms first second).map value).sum =
      one first second + one second first := by
    intro first second
    rw [gameTerms, List.map_append, List.sum_append]
    congr 1
    · simp only [one]
      split <;> simp
    · simp only [one]
      split <;> simp
  rw [terms_of_table, List.map_append, List.map_append, List.sum_append, List.sum_append,
    List.map_singleton, List.sum_singleton, List.map_flatMap, sum_flat_map, sum_of_all]
  congr 1
  congr 1
  · have alone : ∀ player, one player player = 0 := by
      intro player
      simp [one]
    rw [← sum_above_diagonal alone]
    apply Finset.sum_congr rfl
    intro first _
    rw [List.map_flatMap, sum_flat_map, sum_map_filter, sum_of_all]
    simp only [games]
  · split
    · rw [List.map_flatMap, sum_flat_map, sum_of_all]
    · rfl

/-! ## The ratings of a table -/

theorem rate_eq (link : Link ℝ) (settings : FitSettings ℝ) :
    table.rate link settings prior draws =
      if table.players.isEmpty then .error .noPlayers
      else Fit.ratingsOf link settings ((ofTable table).posterior prior draws) := by
  have estimated := Fit.estimate_eq link settings (players_of_terms table prior draws)
  have rated : table.rate link settings prior draws =
      if (ofTable table).isEmpty then .error .noPlayers
      else Fit.estimate link settings ((ofTable table).terms prior draws) := rfl
  have nobody : (ofTable table).isEmpty = table.players.isEmpty := by
    change (table.players.length == 0) = _
    cases table.players <;> rfl
  rw [rated, nobody, estimated]
  split
  · rfl
  · rfl

end ScoreMatrix

theorem Crosstable.rate_of_somebody {table : Crosstable} (somebody : table.players ≠ [])
    (link : Link ℝ) (settings : FitSettings ℝ) (prior draws : ℝ) :
    table.rate link settings prior draws =
      Fit.ratingsOf link settings ((ScoreMatrix.ofTable table).posterior prior draws) := by
  rw [ScoreMatrix.rate_eq, List.isEmpty_eq_false_iff.mpr somebody]
  rfl

end KifuRatings
