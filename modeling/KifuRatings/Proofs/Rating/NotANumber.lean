import KifuRatings.Proofs.Rating.SpecialValues

/-!
# Ratings that are not numbers

The greatest magnitude of a list leaves out what is not a number, so a Newton step of nothing else
is shorter than any tolerance: the search ends with it, and its ratings are not numbers. Nothing else
goes wrong unnoticed. An infinite component makes a step too long to end with, and a component that
is a finite number keeps its strength a number. A prior, a weight of the draws or a strength that is
not finite spoils the whole step, so that a search which ends all the same rates nobody by a number.
-/

namespace KifuRatings

open Double

namespace Fit

theorem halved_nonzero : ∀ halved : Fin 28,
    isNonzero ((· * (0.5 : Float))^[halved.val] 1) = true := by
  decide +kernel

section Stride

variable {size : Nat} {link : Link Float} {posterior : Posterior Float size}
  {stride : Stride Float size} (taken : stride? link posterior stride.start = some stride)

include taken

theorem scale_nonzero : isNonzero stride.scale = true := by
  obtain ⟨_, _, searched⟩ := stride_eq_some taken
  obtain ⟨halved, few, same⟩ := @line_search_scale _ _ _ link posterior stride.start stride.step
    maxHalvings 1
  rw [searched] at same
  rw [show stride.scale = _ from same]
  exact halved_nonzero ⟨halved, Nat.lt_succ_of_le few⟩

/-- A short stride has no infinite component. -/
theorem nan_of_lost_step {tolerance : Float} (short : stride.length < tolerance)
    {player : Fin size} (lost : Lost (stride.step.get player)) :
    (stride.step.get player).isNaN = true := by
  have member : stride.step.get player * stride.scale ∈ stride.step.toList.map (· * stride.scale) :=
    List.mem_map.mpr ⟨_, List.getElem_mem _, rfl⟩
  have scaled := nan_of_bounded short member (lost_absorbing.mul_left _ _ lost)
  by_contra number
  rw [Bool.not_eq_true] at number
  rw [number_of_product number (scale_nonzero taken)] at scaled
  cases scaled

theorem reached_of_finite {tolerance : Float} (short : stride.length < tolerance)
    {player : Fin size} (finite : (stride.start.strengths.get player).isFinite = true) :
    (stride.reached.strengths.get player).isNaN = (stride.step.get player).isNaN := by
  rw [reached_strength taken]
  cases nan : (stride.step.get player).isNaN with
  | true => exact nan_of_sum (.inr (nan_of_product (.inr nan)))
  | false =>
      have stepFinite : (stride.step.get player).isFinite = true := by
        by_contra lost
        rw [nan_of_lost_step taken short (Bool.eq_false_iff.mpr lost)] at nan
        cases nan
      exact number_of_sum finite
        (number_of_finite_product (finite_of_nonzero (scale_nonzero taken)) stepFinite)

theorem lost_reached {player : Fin size} (lost : Lost (stride.start.strengths.get player)) :
    Lost (stride.reached.strengths.get player) := by
  rw [reached_strength taken]
  exact lost_absorbing.add_left _ _ lost

end Stride

theorem lost_at_last {size : Nat} {link : Link Float} {settings : FitSettings Float}
    {posterior : Posterior Float size} {earlier : List (Stride Float size)}
    {last stride : Stride Float size}
    (listed : searchStrides link settings posterior = earlier ++ [last])
    (member : stride ∈ earlier) {player : Fin size}
    (lost : Lost (stride.reached.strengths.get player)) :
    Lost (last.start.strengths.get player) := by
  obtain ⟨before, after, rfl⟩ := List.append_of_mem member
  rw [List.append_assoc, List.cons_append] at listed
  obtain ⟨_, fewer, behind⟩ := strides_behind listed
  let StaysLost (position : Position Float size) : Prop := Lost (position.strengths.get player)
  have kept (stride : Stride Float size)
      (taken : stride? link posterior stride.start = some stride) :
      StaysLost stride.start → StaysLost stride.reached := lost_reached taken
  have isLast : last ∈ strides link settings posterior fewer stride.reached := by
    rw [← behind]
    exact List.mem_append_right _ (List.mem_singleton_self last)
  exact (strides_keep kept lost last isLast).1

end Fit

/-! ## Ratings of a table -/

/-- What the last stride and the covariances make of a player's rating. -/
structure Rating.AsFitted {size : Nat} (last : Fit.Stride Float size) (covariance : Grid Float size)
    (player : Fin size) (rating : Rating Float) : Prop where
  /-- The rating is not a number exactly if the component of the last step is none. -/
  number : rating.elo.isNaN = (last.step.get player).isNaN
  finite : (last.reached.strengths.get player).abs ≤ 1e300 → rating.elo.isFinite = true
  /-- A variance that is not a number is no uncertainty at all. -/
  certain : (covariance.entry player player).isNaN = true → rating.stderr = 0
  errorNumber : rating.stderr.isNaN = false
  errorFinite : covariance.entry player player ≠ infinity → rating.stderr.isFinite = true

theorem elo_per_strength_within :
    Decimal.Within (-45) (Term.eloPerStrength : Float).toModel.unpack := by
  decide +kernel

theorem elo_per_strength_nonzero : isNonzero (Term.eloPerStrength : Float) = true := by
  decide +kernel

theorem bound_within : Decimal.Within 944 (1e300 : Float).toModel.unpack := by
  decide +kernel

theorem elo_finite {strength : Float} (bounded : strength.abs ≤ 1e300) :
    (strength * Term.eloPerStrength).isFinite = true :=
  Decimal.finite_of_within (Decimal.within_of_product (within_of_le bound_within bounded)
    elo_per_strength_within (le_refl _) (by norm_num) (by norm_num))

theorem stderr_finite {variance : Float} (bounded : variance ≠ infinity) :
    (Float.sqrt (greater variance 0) * Term.eloPerStrength).isFinite = true :=
  Decimal.finite_of_within (Decimal.within_of_product (root_within bounded)
    elo_per_strength_within (le_refl _) (by norm_num) (by norm_num))

theorem elo_nan_iff (strength : Float) :
    (strength * Term.eloPerStrength).isNaN = strength.isNaN := by
  cases nan : strength.isNaN with
  | true => exact nan_of_product (.inl nan)
  | false => exact number_of_product nan elo_per_strength_nonzero

section Fitted

variable {size : Nat} (players : Vector String size) {stride : Fit.Stride Float size}
  (covariance : Grid Float size)
  (reached : ∀ player,
    (stride.reached.strengths.get player).isNaN = (stride.step.get player).isNaN)

include reached

theorem as_fitted (player : Fin size) : Rating.AsFitted stride covariance player
    ((RatingList.ofStrengths players stride.reached.strengths covariance).entries.get player) := by
  rw [RatingList.entry_of_strengths]
  exact {
    number := (elo_nan_iff _).trans (reached player)
    finite := elo_finite
    certain := by
      intro nan
      have none : greater (covariance.entry player player) 0 = 0 := if_pos nan
      change Float.sqrt (greater (covariance.entry player player) 0) * _ = 0
      rw [none]
      decide +kernel
    errorNumber := (elo_nan_iff _).trans (root_number _)
    errorFinite := stderr_finite }

theorem all_fitted : List.Forall₂ (Rating.AsFitted stride covariance) (List.finRange size)
    (RatingList.ofStrengths players stride.reached.strengths covariance).entries.toList := by
  rw [to_list_eq_map, List.forall₂_map_right_iff]
  apply List.forall₂_same.mpr
  intro player _
  exact as_fitted players covariance reached player

theorem all_nan (nan : ∀ player, (stride.step.get player).isNaN = true) :
    ∀ rating ∈ (RatingList.ofStrengths players stride.reached.strengths covariance).entries.toList,
      rating.elo.isNaN = true := by
  rw [to_list_eq_map]
  intro rating member
  obtain ⟨player, _, rfl⟩ := List.mem_map.mp member
  exact (as_fitted players covariance reached player).number.trans (nan player)

end Fitted

namespace ScoreMatrix

variable {table : Crosstable} {prior draws : Float} {link : Link Float}
  {stride : Fit.Stride Float (Posterior.playersOf ((ofTable table).terms prior draws)).length}
  (taken : Fit.stride? link (ratingPosterior table prior draws) stride.start = some stride)
  {tolerance : Float} (short : stride.length < tolerance)

include taken short

/-- Whoever starts from spoilt strengths comes to no number. -/
theorem nan_of_spoilt (spoilt : Spoilt Lost table prior draws stride.start.strengths)
    (player : Fin (Posterior.playersOf ((ofTable table).terms prior draws)).length) :
    (stride.step.get player).isNaN = true :=
  Fit.nan_of_lost_step taken short (step_of_spoilt lost_absorbing taken spoilt player)

theorem reached_nan_iff
    (player : Fin (Posterior.playersOf ((ofTable table).terms prior draws)).length) :
    (stride.reached.strengths.get player).isNaN = (stride.step.get player).isNaN := by
  cases finite : (stride.start.strengths.get player).isFinite with
  | true => exact Fit.reached_of_finite taken short finite
  | false =>
      have nan := nan_of_spoilt taken short (.strength player finite) player
      rw [Fit.reached_strength taken, nan]
      exact nan_of_sum (.inr (nan_of_product (.inr nan)))

end ScoreMatrix

namespace Crosstable

open ScoreMatrix

/-- Ratings of a table, traced back to the last stride of the search for them and to the
covariances at its end. -/
structure Traced (table : Crosstable) (link : Link Float) (settings : FitSettings Float)
    (prior draws : Float) (ratings : RatingList Float)
    (earlier : List (Fit.Stride Float (Posterior.playersOf ((ofTable table).terms prior draws)).length))
    (last : Fit.Stride Float (Posterior.playersOf ((ofTable table).terms prior draws)).length)
    (covariance : Grid Float (Posterior.playersOf ((ofTable table).terms prior draws)).length) :
    Prop where
  strides : Fit.searchStrides link settings (ratingPosterior table prior draws) = earlier ++ [last]
  inverse : ((ratingPosterior table prior draws).precision link last.reached.strengths).inverse =
    some covariance
  fitted : List.Forall₂ (Rating.AsFitted last covariance) (List.finRange _) ratings.entries.toList
  /-- Nobody is rated by a number if the prior, the draws or a strength on the way was not finite. -/
  spoilt : prior.isFinite = false ∨ (0 < draws ∧ draws.isFinite = false) ∨
      (∃ stride ∈ earlier, ∃ player, (stride.reached.strengths.get player).isFinite = false) →
    ∀ rating ∈ ratings.entries.toList, rating.elo.isNaN = true

/-- Whatever is returned, however strange the prior and the weight of the draws, a rating is a
number exactly if its component of the last Newton step is one. -/
theorem ratings_follow_last_step {table : Crosstable} {link : Link Float} {settings : FitSettings Float}
    {prior draws : Float} {ratings : RatingList Float}
    (rated : table.rate link settings prior draws = .ok ratings) :
    ∃ earlier last covariance,
      table.Traced link settings prior draws ratings earlier last covariance := by
  obtain ⟨strengths, covariance, found, inverted, rfl⟩ :=
    Fit.estimate_eq_ok (estimate_of_rate rated)
  obtain ⟨earlier, last, listed, short, rfl⟩ := Fit.climb_ends found
  have taken : Fit.stride? link (ratingPosterior table prior draws) last.start = some last :=
    (Fit.strides_behind listed).1
  have reached := reached_nan_iff taken short
  refine ⟨earlier, last, covariance, listed, inverted, all_fitted _ covariance reached, ?spoilt⟩
  case spoilt =>
    intro causes
    apply all_nan _ covariance reached
    apply nan_of_spoilt taken short
    rcases causes with lostPrior | ⟨drawn, lostDraws⟩ | ⟨stride, member, player, lost⟩
    · exact .prior lostPrior
    · exact .draws drawn (not_le_zero drawn) lostDraws
    · exact .strength player (Fit.lost_at_last listed member lost)

def lonely : Crosstable := empty.add ⟨"a", "a"⟩ ⟨1, 0, 0⟩

theorem exists_rating {outcome : Except FitError (RatingList Float)} {ratings : List Bool}
    (listed : outcome.toOption.map (fun list => list.entries.toList.map (·.elo.isNaN)) =
      some ratings) :
    ∃ list, outcome = .ok list ∧ list.entries.toList.map (·.elo.isNaN) = ratings := by
  cases outcome with
  | error cause => cases listed
  | ok list => exact ⟨list, rfl, Option.some.inj listed⟩

/-- An ordinary prior gives a rating that is a number. -/
theorem lonely_player_is_rated :
    ∃ ratings, lonely.rate Link.logistic Fit.defaultSettings 3400 0 = .ok ratings ∧
      ratings.entries.toList.map (·.elo.isNaN) = [false] ∧
      ∃ earlier last covariance,
        lonely.Traced Link.logistic Fit.defaultSettings 3400 0 ratings earlier last covariance := by
  have listed : (lonely.rate Link.logistic Fit.defaultSettings (3400 : Float) 0).toOption.map
      (fun list => list.entries.toList.map (·.elo.isNaN)) = some [false] := by decide +kernel
  obtain ⟨ratings, rated, numbers⟩ := exists_rating listed
  exact ⟨ratings, rated, numbers, ratings_follow_last_step rated⟩

/-- A finite prior for which the first slope overflows: the search takes an infinite step there and
another one back, ends with a step that is not a number, and the rating is none. -/
theorem lonely_player_is_rated_by_no_number :
    (1e308 : Float).isFinite = true ∧
    ∃ ratings, lonely.rate Link.logistic Fit.defaultSettings 1e308 0 = .ok ratings ∧
      ratings.entries.toList.map (·.elo.isNaN) = [true] := by
  refine ⟨by decide +kernel, exists_rating ?_⟩
  decide +kernel

end Crosstable

end KifuRatings
