import KifuRatings.Proofs.Rating.Strides
import KifuRatings.Proofs.Rating.Terms

/-!
# The positions of a climb

A climb goes from position to position by Newton steps. Whatever it ends with is told by one of
these positions: the strengths that it returns are strengths that it visited, and but for running
out of steps it gives up only where a system was refused. So what every step keeps holds of the
ratings, and of the place of a refusal.
-/

namespace KifuRatings.Fit

variable {size : Nat} (link : Link ℝ) (posterior : Posterior ℝ size)

noncomputable def newtonStep (strengths : Vector ℝ size) : Option (Vector ℝ size) :=
  (posterior.precision link strengths).solve (posterior.gradient link strengths)

def Climbs (start reached : Position ℝ size) : Prop :=
  ∃ step, newtonStep link posterior start.strengths = some step ∧
    reached = (lineSearch link posterior start step maxHalvings 1).2

/-- The positions that a climb comes to, the start among them. -/
abbrev Visits : Position ℝ size → Position ℝ size → Prop :=
  Relation.ReflTransGen (Climbs link posterior)

noncomputable def startPosition : Position ℝ size :=
  position link posterior (Vector.replicate size 0)

@[simp]
theorem default_tolerance : (defaultSettings : FitSettings ℝ).tolerance = 1e-10 := rfl

@[simp]
theorem default_iterations : (defaultSettings : FitSettings ℝ).maxIterations = 200 := rfl

theorem start_strengths_get (player : Fin size) :
    (startPosition link posterior).strengths.get player = 0 := by
  change (Vector.replicate size (0 : ℝ)).get player = 0
  rw [Vector.get_replicate]

variable {link posterior}

theorem get_shift (strengths step : Vector ℝ size) (scale : ℝ) (player : Fin size) :
    (shift strengths step scale).get player = strengths.get player + scale * step.get player :=
  get_zip_with _ _ _ _

/-- A line search goes along the step, however far, and looks at the value there. -/
theorem line_search_reached (start : Position ℝ size) (step : Vector ℝ size) (halvings : Nat)
    (scale : ℝ) : ∃ taken, (lineSearch link posterior start step halvings scale).2 =
      position link posterior (shift start.strengths step taken) :=
  ⟨_, line_search_end start step halvings scale⟩

theorem line_search_ascends {start : Position ℝ size} {step : Vector ℝ size} {halvings : Nat}
    {scale : ℝ} (ascends : start.value ≤
      posterior.value link (shift start.strengths step (scale * 0.5 ^ halvings))) :
    start.value ≤ (lineSearch link posterior start step halvings scale).2.value := by
  induction halvings generalizing scale with
  | zero =>
      rw [pow_zero, mul_one] at ascends
      exact ascends
  | succ halvings induction =>
      unfold lineSearch
      dsimp only
      split
      · apply induction
        rwa [mul_assoc, ← pow_succ']
      · rename_i notLower
        exact not_lt.mp notLower

theorem line_search_still {start : Position ℝ size}
    (looked : start = position link posterior start.strengths) {step : Vector ℝ size}
    (still : step.get = 0) (halvings : Nat) (scale : ℝ) :
    lineSearch link posterior start step halvings scale = (scale, start) := by
  have same : shift start.strengths step scale = start.strengths := by
    apply vector_ext
    intro player
    have moved := get_shift start.strengths step scale player
    rw [moved, still, Pi.zero_apply, mul_zero, add_zero]
  have accepted : ¬posterior.value link (shift start.strengths step scale) < start.value := by
    rw [same, value_of_position looked]
    exact lt_irrefl _
  rw [line_search_accepted accepted, same, ← looked]

theorem climbs_of_stride {start : Position ℝ size} {stride : Stride ℝ size}
    (taken : stride? link posterior start = some stride) :
    Climbs link posterior start stride.reached := by
  obtain ⟨_, solved, searched⟩ := stride_eq_some taken
  exact ⟨stride.step, solved, by rw [searched]⟩

theorem mem_changes {step : Vector ℝ size} {scale value : ℝ} :
    value ∈ step.toList.map (· * scale) ↔ ∃ player, step.get player * scale = value := by
  rw [to_list_eq_map, List.map_map, List.mem_map]
  simp only [List.mem_finRange, true_and, Function.comp_apply]

theorem Stride.length_le {stride : Stride ℝ size} {bound : ℝ} (nonneg : 0 ≤ bound)
    (bounded : ∀ player, |stride.step.get player * stride.scale| ≤ bound) :
    stride.length ≤ bound := by
  apply Scalar.greatest_abs_le nonneg
  intro value member
  obtain ⟨player, rfl⟩ := mem_changes.mp member
  exact bounded player

theorem Stride.le_length (stride : Stride ℝ size) (player : Fin size) :
    |stride.step.get player * stride.scale| ≤ stride.length :=
  Scalar.abs_le_greatest (mem_changes.mpr ⟨player, rfl⟩)

theorem climb_succ (settings : FitSettings ℝ) (remaining : Nat) (isFirst : Bool)
    (start : Position ℝ size) :
    climb link settings posterior (remaining + 1) isFirst start =
      match newtonStep link posterior start.strengths with
      | none =>
          .error (if isFirst then .singularSystem
            else .unboundedRating (outlier posterior start.strengths))
      | some step =>
          if Scalar.greatestAbs (step.toList.map
              (· * (lineSearch link posterior start step maxHalvings 1).1)) < settings.tolerance
          then .ok (lineSearch link posterior start step maxHalvings 1).2.strengths
          else climb link settings posterior remaining false
            (lineSearch link posterior start step maxHalvings 1).2 := by
  rw [climb]
  unfold newtonStep
  cases (posterior.precision link start.strengths).solve
      (posterior.gradient link start.strengths) with
  | none => rfl
  | some step => rfl

theorem climb_eq_ok {settings : FitSettings ℝ} {remaining : Nat} {isFirst : Bool}
    {start : Position ℝ size} {strengths : Vector ℝ size}
    (ended : climb link settings posterior remaining isFirst start = .ok strengths) :
    ∃ last, Visits link posterior start last ∧ last.strengths = strengths := by
  obtain ⟨earlier, last, listed, _, same⟩ := climb_ends ended
  have kept : ∀ stride : Stride ℝ size, stride? link posterior stride.start = some stride →
      Visits link posterior start stride.start → Visits link posterior start stride.reached :=
    fun _ taken visits => visits.tail (climbs_of_stride taken)
  have isLast : last ∈ strides link settings posterior remaining start := by
    rw [listed]
    exact List.mem_append_right _ (List.mem_singleton_self last)
  exact ⟨last.reached, (strides_keep kept .refl last isLast).2, same⟩

theorem climb_eq_error {settings : FitSettings ℝ} {remaining : Nat} {isFirst : Bool}
    {start : Position ℝ size} {cause : FitError}
    (ended : climb link settings posterior remaining isFirst start = .error cause) :
    cause = .notConverged settings.maxIterations ∨
      ∃ last, Visits link posterior start last ∧
        newtonStep link posterior last.strengths = none := by
  induction remaining generalizing isFirst start with
  | zero => exact .inl (Except.error.inj ended).symm
  | succ remaining induction =>
      rw [climb_succ] at ended
      cases solved : newtonStep link posterior start.strengths with
      | none => exact .inr ⟨start, .refl, solved⟩
      | some step =>
          have climbs : Climbs link posterior start
            (lineSearch link posterior start step maxHalvings 1).2 := ⟨step, solved, rfl⟩
          simp only [solved] at ended
          split at ended
          · cases ended
          · apply (induction ended).imp_right
            intro refused
            obtain ⟨last, visits, none⟩ := refused
            exact ⟨last, visits.head climbs, none⟩

theorem visited_is_position {last : Position ℝ size}
    (visits : Visits link posterior (startPosition link posterior) last) :
    last = position link posterior last.strengths := by
  rcases visits.cases_tail with same | ⟨start, _, step, _, reached⟩
  · rw [same]
    rfl
  · obtain ⟨taken, same⟩ := @line_search_reached _ link posterior start step maxHalvings 1
    rw [reached, same]
    rfl

theorem search_of_ratings {settings : FitSettings ℝ} {ratings : RatingList ℝ}
    (rated : ratingsOf link settings posterior = .ok ratings) :
    ∃ strengths covariance, search link settings posterior = .ok strengths ∧
      (posterior.precision link strengths).inverse = some covariance ∧
      ratings = RatingList.ofStrengths posterior.players strengths covariance := by
  unfold ratingsOf at rated
  cases found : search link settings posterior with
  | error cause =>
      rw [found] at rated
      cases rated
  | ok strengths =>
      rw [found] at rated
      change ratingsAt link posterior strengths = .ok ratings at rated
      unfold ratingsAt at rated
      cases inverted : (posterior.precision link strengths).inverse with
      | none =>
          rw [inverted] at rated
          cases rated
      | some covariance =>
          rw [inverted] at rated
          exact ⟨strengths, covariance, rfl, inverted, (Except.ok.inj rated).symm⟩

theorem ratings_of_eq_ok {settings : FitSettings ℝ} {ratings : RatingList ℝ}
    (rated : ratingsOf link settings posterior = .ok ratings) :
    ∃ last covariance, Visits link posterior (startPosition link posterior) last ∧
      (posterior.precision link last.strengths).inverse = some covariance ∧
      ratings = RatingList.ofStrengths posterior.players last.strengths covariance := by
  obtain ⟨strengths, covariance, found, inverted, same⟩ := search_of_ratings rated
  obtain ⟨last, visits, rfl⟩ := climb_eq_ok found
  exact ⟨last, covariance, visits, inverted, same⟩

theorem ratings_of_eq_error {settings : FitSettings ℝ} {cause : FitError}
    (refused : ratingsOf link settings posterior = .error cause) :
    cause = .notConverged settings.maxIterations ∨
      ∃ last, Visits link posterior (startPosition link posterior) last ∧
        (newtonStep link posterior last.strengths = none ∨
          (posterior.precision link last.strengths).inverse = none) := by
  unfold ratingsOf at refused
  cases found : search link settings posterior with
  | error other =>
      rw [found] at refused
      cases refused
      apply (climb_eq_error found).imp_right
      intro stopped
      obtain ⟨last, visits, none⟩ := stopped
      exact ⟨last, visits, .inl none⟩
  | ok strengths =>
      obtain ⟨last, visits, rfl⟩ := climb_eq_ok found
      rw [found] at refused
      change ratingsAt link posterior last.strengths = .error cause at refused
      unfold ratingsAt at refused
      cases inverted : (posterior.precision link last.strengths).inverse with
      | none => exact .inr ⟨last, visits, .inr inverted⟩
      | some covariance =>
          rw [inverted] at refused
          cases refused

theorem ratings_of_singular {settings : FitSettings ℝ} (some : 0 < settings.maxIterations)
    (refused : newtonStep link posterior (startPosition link posterior).strengths = none) :
    ratingsOf link settings posterior = .error .singularSystem := by
  obtain ⟨remaining, count⟩ := Nat.exists_eq_add_one.mpr some
  have stopped : search link settings posterior = .error .singularSystem := by
    unfold search
    rw [count]
    change climb link settings posterior (remaining + 1) true (startPosition link posterior) = _
    rw [climb_succ, refused]
    rfl
  rw [ratingsOf, stopped]
  rfl

theorem ratings_of_still {settings : FitSettings ℝ} (some : 0 < settings.maxIterations)
    (tolerant : 0 < settings.tolerance) {step : Vector ℝ size}
    (found : newtonStep link posterior (startPosition link posterior).strengths = .some step)
    (still : step.get = 0) {covariance : Grid ℝ size}
    (inverted : (posterior.precision link (startPosition link posterior).strengths).inverse =
      .some covariance) :
    ratingsOf link settings posterior = .ok (RatingList.ofStrengths posterior.players
      (startPosition link posterior).strengths covariance) := by
  obtain ⟨remaining, count⟩ := Nat.exists_eq_add_one.mpr some
  have stopped : search link settings posterior =
      .ok (startPosition link posterior).strengths := by
    have short : Scalar.greatestAbs (step.toList.map (· * (1 : ℝ))) < settings.tolerance := by
      apply lt_of_le_of_lt _ tolerant
      apply Scalar.greatest_abs_le (le_refl 0)
      intro value member
      obtain ⟨player, rfl⟩ := mem_changes.mp member
      rw [still, Pi.zero_apply, zero_mul, abs_zero]
    unfold search
    rw [count]
    change climb link settings posterior (remaining + 1) true (startPosition link posterior) = _
    rw [climb_succ, found]
    dsimp only
    rw [line_search_still rfl still, if_pos short]
  rw [ratingsOf, stopped]
  change ratingsAt link posterior (startPosition link posterior).strengths = _
  rw [ratingsAt, inverted]

end KifuRatings.Fit
