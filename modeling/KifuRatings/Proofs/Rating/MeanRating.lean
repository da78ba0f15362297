import KifuRatings.Proofs.Rating.Gaps

/-!
# The mean rating

Every stride takes its part of the way from the mean strength to the prior. So the mean has the
prior for good once a step was taken whole. This is seen best where the games say nothing: in an
even table all players go to the prior with the first step, and stay there.
-/

namespace KifuRatings

open Logistic Matrix

namespace ScoreMatrix

section Even

variable {table : Crosstable}
  (even : ∀ one other, (ofTable table).won one other = (ofTable table).won other one)
  {prior height : ℝ}

theorem mean_of_level (somebody : 0 < (ofTable table).size)
    {strengths : Vector ℝ (ofTable table).size}
    (level : ∀ player, strengths.get player = height) :
    meanAbove prior strengths.get = height - strengthOf prior := by
  have some : ((ofTable table).size : ℝ) ≠ 0 := Nat.cast_ne_zero.mpr somebody.ne'
  simp only [meanAbove, level, Finset.sum_const, Finset.card_univ, Fintype.card_fin, nsmul_eq_mul]
  rw [mul_div_cancel_left₀ height some]

theorem level_of_shift {strengths step : Vector ℝ (ofTable table).size}
    (level : ∀ player, strengths.get player = height)
    (moved : ∀ player, step.get player = strengthOf prior - height)
    (player : Fin (ofTable table).size) :
    (Fit.shift strengths step 1).get player = strengthOf prior := by
  rw [Fit.get_shift, level, moved, one_mul, add_sub_cancel]

include even

/-- Wins that are answered by as many losses move nobody apart. -/
theorem gradient_of_level (somebody : 0 < (ofTable table).size)
    {strengths : Vector ℝ (ofTable table).size}
    (level : ∀ player, strengths.get player = height)
    (direction : Fin (ofTable table).size → ℝ) :
    direction ⬝ᵥ (((ofTable table).posterior prior 0).gradient Link.logistic strengths).get =
      10000 * ((strengthOf prior - height) *
        ((∑ player, direction player) / (ofTable table).size)) := by
  let share (winner loser : Fin (ofTable table).size) : ℝ :=
    (ofTable table).won winner loser * (Real.sigmoid 0 * (direction winner - direction loser))
  have opposite : ∀ winner loser, share winner loser = -share loser winner := by
    intro winner loser
    simp only [share]
    rw [even winner loser]
    ring
  rw [dot_gradient_of_games, mean_of_level somebody level]
  simp only [level, sub_self, neg_zero]
  change ∑ winner, ∑ loser, share winner loser - _ = _
  rw [sum_of_opposite opposite]
  ring

/-- From one strength of all players the Newton step leads everybody to the prior. -/
theorem step_of_level (somebody : 0 < (ofTable table).size)
    {strengths step : Vector ℝ (ofTable table).size}
    (level : ∀ player, strengths.get player = height)
    (found : Fit.newtonStep Link.logistic ((ofTable table).posterior prior 0) strengths = some step)
    (player : Fin (ofTable table).size) : step.get player = strengthOf prior - height := by
  have some : ((ofTable table).size : ℝ) ≠ 0 := Nat.cast_ne_zero.mpr somebody.ne'
  have solves : (((ofTable table).posterior prior 0).precision Link.logistic
      strengths).toMatrix *ᵥ (fun _ => strengthOf prior - height) =
        (((ofTable table).posterior prior 0).gradient Link.logistic strengths).get := by
    apply dotProduct_eq
    intro direction
    rw [dotProduct_comm, dotProduct_comm _ direction, dot_precision_of_games,
      gradient_of_level even somebody level]
    simp only [sub_self, mul_zero, Finset.sum_const_zero, zero_add, Finset.sum_const,
      Finset.card_univ, Fintype.card_fin, nsmul_eq_mul]
    rw [mul_div_cancel_left₀ _ some]
    ring
  exact (congrFun ((Grid.solve_unique found _).mp solves) player).symm

theorem stride_of_level (linked : Linked table) (seesDraw : SeesOneDraw table)
    (somebody : 0 < (ofTable table).size) {start : Fit.Position ℝ (ofTable table).size}
    (looked : start =
      Fit.position Link.logistic ((ofTable table).posterior prior 0) start.strengths)
    (level : ∀ player, start.strengths.get player = height) :
    ∃ stride, Fit.stride? Link.logistic ((ofTable table).posterior prior 0) start = some stride ∧
      stride.scale = 1 ∧ (∀ player, stride.step.get player = strengthOf prior - height) ∧
      ∀ player, stride.reached.strengths.get player = strengthOf prior := by
  obtain ⟨step, found⟩ :=
    Option.ne_none_iff_exists'.mp (accepted_of_level linked seesDraw somebody prior level).1
  have moved := step_of_level even somebody level found
  have reached := level_of_shift level moved
  have notLower : ¬((ofTable table).posterior prior 0).value Link.logistic
      (Fit.shift start.strengths step 1) < start.value := by
    have games : gamesLoss table (Fit.shift start.strengths step 1) =
        gamesLoss table start.strengths := by
      simp only [gamesLoss, reached, level, sub_self]
    have arrived := mean_of_whole_step table prior Link.logistic found
    rw [Fit.value_of_position looked, not_lt, value_of_games, value_of_games, games, arrived]
    linarith [sq_nonneg (meanAbove prior start.strengths.get)]
  exact ⟨_, Fit.stride_whole found notLower, rfl, moved, reached⟩

theorem strides_level (linked : Linked table) (seesDraw : SeesOneDraw table)
    (somebody : 0 < (ofTable table).size) (settings : FitSettings ℝ) :
    ∀ stride ∈ Fit.searchStrides Link.logistic settings ((ofTable table).posterior prior 0),
      ∃ height, ∀ player, stride.start.strengths.get player = height := by
  let Level (position : Fit.Position ℝ (ofTable table).size) : Prop :=
    position = Fit.position Link.logistic ((ofTable table).posterior prior 0) position.strengths ∧
      ∃ height, ∀ player, position.strengths.get player = height
  have kept : ∀ stride : Fit.Stride ℝ (ofTable table).size,
      Fit.stride? Link.logistic ((ofTable table).posterior prior 0) stride.start = some stride →
        Level stride.start → Level stride.reached := by
    intro stride taken level
    obtain ⟨looked, height, same⟩ := level
    obtain ⟨other, takenOther, _, _, reached⟩ :=
      stride_of_level even linked seesDraw somebody looked same
    obtain rfl : other = stride := Option.some.inj (takenOther.symm.trans taken)
    exact ⟨Fit.reached_is_position taken, strengthOf prior, reached⟩
  intro stride listed
  exact (Fit.strides_keep kept ⟨rfl, 0, Fit.start_strengths_get _ _⟩ stride listed).1.2

/-- The search ends with the second step, at the prior. -/
theorem search_of_even (linked : Linked table) (seesDraw : SeesOneDraw table)
    (somebody : 0 < (ofTable table).size) {settings : FitSettings ℝ}
    (several : 2 ≤ settings.maxIterations) (tolerant : 0 < settings.tolerance) :
    ∃ strengths, Fit.search Link.logistic settings ((ofTable table).posterior prior 0) =
        .ok strengths ∧
      (∀ player, strengths.get player = strengthOf prior) ∧
      ∃ stride ∈ Fit.searchStrides Link.logistic settings ((ofTable table).posterior prior 0),
        stride.scale = 1 := by
  obtain ⟨fewer, count⟩ := Nat.exists_eq_add_of_le' several
  let start := Fit.startPosition Link.logistic ((ofTable table).posterior prior 0)
  have looked : start =
      Fit.position Link.logistic ((ofTable table).posterior prior 0) start.strengths := rfl
  obtain ⟨first, taken, whole, _, arrived⟩ :=
    stride_of_level even linked seesDraw somebody looked (Fit.start_strengths_get _ _)
  obtain ⟨second, takenAgain, _, stays, still⟩ := stride_of_level even linked seesDraw somebody
    (Fit.reached_is_position taken) arrived
  have short : second.length < settings.tolerance := by
    apply lt_of_le_of_lt _ tolerant
    apply Fit.Stride.length_le (le_refl 0)
    intro player
    rw [stays, sub_self, zero_mul, abs_zero]
  have listed : first ∈
      Fit.searchStrides Link.logistic settings ((ofTable table).posterior prior 0) := by
    rw [Fit.searchStrides, count]
    change first ∈ Fit.strides Link.logistic settings _ (fewer + 1 + 1) start
    rw [Fit.strides_stride taken]
    exact List.mem_cons_self
  have searched : Fit.search Link.logistic settings ((ofTable table).posterior prior 0) =
      if first.length < settings.tolerance then .ok first.reached.strengths
      else .ok second.reached.strengths := by
    rw [Fit.search, count]
    change Fit.climb Link.logistic settings _ (fewer + 1 + 1) true start = _
    rw [Fit.climb_stride taken, Fit.climb_stride takenAgain, if_pos short]
  rw [searched]
  split
  · exact ⟨_, rfl, arrived, first, listed, whole⟩
  · exact ⟨_, rfl, still, first, listed, whole⟩

end Even

end ScoreMatrix

namespace Crosstable

open ScoreMatrix

/-- The strides of the search for the ratings of a table without draws against the prior. -/
noncomputable def ratingStrides (table : Crosstable) (link : Link ℝ) (settings : FitSettings ℝ)
    (prior : ℝ) : List (Fit.Stride ℝ (ofTable table).size) :=
  Fit.searchStrides link settings ((ofTable table).posterior prior 0)

/-- The players of an even table in which all are linked are rated, and on the way a step is taken
whole. -/
theorem linked_even_table_is_rated {table : Crosstable}
    (even : ∀ one other, (ofTable table).won one other = (ofTable table).won other one)
    (linked : Linked table) (seesDraw : SeesOneDraw table) (somebody : table.players ≠ [])
    {settings : FitSettings ℝ} (several : 2 ≤ settings.maxIterations)
    (tolerant : 0 < settings.tolerance) (prior : ℝ) :
    (∃ ratings, table.rate Link.logistic settings prior 0 = .ok ratings) ∧
    ∃ stride ∈ table.ratingStrides Link.logistic settings prior, stride.scale = 1 := by
  have listed : 0 < (ofTable table).size := List.length_pos_iff.mpr somebody
  obtain ⟨strengths, found, level, full⟩ :=
    @search_of_even table even prior linked seesDraw listed settings several tolerant
  obtain ⟨covariance, inverted⟩ :=
    Option.ne_none_iff_exists'.mp (accepted_of_level linked seesDraw listed prior level).2
  refine ⟨⟨RatingList.ofStrengths ((ofTable table).posterior prior 0).players strengths covariance,
    ?_⟩, full⟩
  rw [rate_of_somebody somebody]
  rw [Fit.ratingsOf, found]
  change Fit.ratingsAt Link.logistic ((ofTable table).posterior prior 0) strengths = _
  rw [Fit.ratingsAt, inverted]

variable (table : Crosstable) (link : Link ℝ) (settings : FitSettings ℝ) (prior : ℝ)

/-- From the first stride of full length on the mean strength stays at the prior. -/
theorem mean_behind_full_stride {before after : List (Fit.Stride ℝ (ofTable table).size)}
    {full : Fit.Stride ℝ (ofTable table).size}
    (listed : table.ratingStrides link settings prior = before ++ full :: after)
    (whole : full.scale = 1) :
    ∀ stride ∈ full :: after, meanAbove prior stride.reached.strengths.get = 0 := by
  obtain ⟨taken, fewer, rest⟩ := Fit.strides_behind listed
  let Centred (position : Fit.Position ℝ (ofTable table).size) : Prop :=
    meanAbove prior position.strengths.get = 0
  have arrived : Centred full.reached := by
    change meanAbove prior full.reached.strengths.get = 0
    rw [mean_of_stride table prior link taken, whole, sub_self, zero_mul]
  have kept : ∀ stride : Fit.Stride ℝ (ofTable table).size,
      Fit.stride? link ((ofTable table).posterior prior 0) stride.start = some stride →
        Centred stride.start → Centred stride.reached := by
    intro stride taken centred
    change meanAbove prior stride.reached.strengths.get = 0
    rw [mean_of_stride table prior link taken, centred, mul_zero]
  intro stride member
  rcases List.mem_cons.mp member with rfl | later
  · exact arrived
  · rw [rest] at later
    exact (Fit.strides_keep kept arrived stride later).2

theorem mean_of_full_stride {ratings : RatingList ℝ}
    (rated : table.rate link settings prior 0 = .ok ratings)
    (full : ∃ stride ∈ table.ratingStrides link settings prior, stride.scale = 1) :
    ratings.mean = prior := by
  rw [rate_eq] at rated
  split at rated
  · cases rated
  · rename_i listed
    have somebody : (ofTable table).size ≠ 0 := by
      intro nobody
      exact listed (List.isEmpty_iff.mpr (List.eq_nil_of_length_eq_zero nobody))
    obtain ⟨strengths, covariance, found, _, rfl⟩ := Fit.search_of_ratings rated
    obtain ⟨earlier, last, ended, _, rfl⟩ := Fit.climb_ends found
    obtain ⟨stride, member, whole⟩ := full
    obtain ⟨before, after, split⟩ := List.append_of_mem member
    have isLast : last ∈ stride :: after := by
      have sameEnd : earlier ++ [last] = before ++ stride :: after := ended.symm.trans split
      have lasts := congrArg List.getLast? sameEnd
      rw [List.getLast?_append_of_ne_nil _ (List.cons_ne_nil _ _),
        List.getLast?_append_of_ne_nil _ (List.cons_ne_nil _ _)] at lasts
      exact List.mem_of_getLast? lasts.symm
    have centred := mean_behind_full_stride table link settings prior split whole last isLast
    have mean : (∑ player, last.reached.strengths.get player) / (ofTable table).size =
        strengthOf prior := sub_eq_zero.mp centred
    have back : strengthOf prior * Term.eloPerStrength = prior :=
      div_mul_cancel₀ prior RatingList.elo_per_strength_ne
    rw [← back, ← mean]
    exact RatingList.mean_of_strengths somebody _ _ _

/-- Without draws against the prior, every stride takes its scale off the distance of the mean
strength from the prior. So the mean stays at the prior from the first stride of full length on, and
ratings that come of such a search have the prior for their mean. -/
theorem ratings_centre_on_prior (table : Crosstable) (link : Link ℝ) (settings : FitSettings ℝ)
    (prior : ℝ) :
    (∀ start stride, Fit.stride? link ((ofTable table).posterior prior 0) start = some stride →
      meanAbove prior stride.reached.strengths.get =
        (1 - stride.scale) * meanAbove prior start.strengths.get) ∧
    (∀ before full after, table.ratingStrides link settings prior = before ++ full :: after →
      full.scale = 1 →
        ∀ stride ∈ full :: after, meanAbove prior stride.reached.strengths.get = 0) ∧
    (∀ ratings, table.rate link settings prior 0 = .ok ratings →
      (∃ stride ∈ table.ratingStrides link settings prior, stride.scale = 1) →
        ratings.mean = prior) := by
  refine ⟨?_, ?_, ?_⟩
  · intro start stride taken
    exact mean_of_stride table prior link taken
  · intro before full after listed whole
    exact mean_behind_full_stride table link settings prior listed whole
  · intro ratings rated full
    exact mean_of_full_stride table link settings prior rated full

def evenTriangle : Crosstable :=
  ((empty.add ⟨"a", "b"⟩ ⟨2, 2, 0⟩).add ⟨"b", "c"⟩ ⟨0, 0, 1⟩).add ⟨"c", "a"⟩ ⟨1, 1, 1⟩

theorem even_triangle_scores (one other : Fin (ofTable evenTriangle).size) :
    (ofTable evenTriangle).won one other = (ofTable evenTriangle).won other one := by
  have cells : ∀ one other, (ofTable evenTriangle).cell one other =
      (ofTable evenTriangle).cell other one := by decide +kernel
  rw [won, cells]
  rfl

theorem even_triangle_linked : Linked evenTriangle := by
  unfold Linked
  simp only [met_iff]
  decide +kernel

theorem even_triangle_sees_one_draw : SeesOneDraw evenTriangle := by
  have games : evenTriangle.played = 8 ∧ evenTriangle.gamesAlone = 0 := by decide +kernel
  have size : (ofTable evenTriangle).size = 3 := by decide +kernel
  rw [SeesOneDraw, neglectedWeight, entryBound, total_won_eq (by rw [games.1]; decide), games.1,
    games.2, size]
  change _ * (_ * ((1e-12 : ℝ) * _)) < 1
  norm_num

theorem even_triangle_centres_on_prior :
    ∃ ratings, evenTriangle.rate (Link.logistic : Link ℝ) Fit.defaultSettings 3400 0 =
        .ok ratings ∧
      (∃ stride ∈ evenTriangle.ratingStrides Link.logistic Fit.defaultSettings 3400,
        stride.scale = 1) ∧
      ratings.mean = 3400 := by
  have tolerant : 0 < (Fit.defaultSettings : FitSettings ℝ).tolerance := by norm_num
  have several : 2 ≤ (Fit.defaultSettings : FitSettings ℝ).maxIterations := by norm_num
  obtain ⟨⟨ratings, rated⟩, full⟩ := linked_even_table_is_rated even_triangle_scores
    even_triangle_linked even_triangle_sees_one_draw (by decide +kernel) several tolerant 3400
  exact ⟨ratings, rated, full, (ratings_centre_on_prior _ _ _ _).2.2 ratings rated full⟩

end Crosstable

end KifuRatings
