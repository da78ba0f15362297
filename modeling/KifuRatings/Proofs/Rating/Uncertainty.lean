import KifuRatings.Proofs.Rating.Names
import KifuRatings.Proofs.Rating.Symmetry

/-!
# Uncertainties

A term with a weight that is not negative makes the precision no smaller in any direction: it counts
with its weight, with the slope of the curve, and with the square of how far its combination goes
along. So the precision is symmetric and semidefinite at all strengths, and where it has an inverse,
the inverse is definite. The errors of ratings and of their differences are then those of real
variances: the difference of two players is a direction, and a definite matrix measures directions
by a norm.
-/

namespace KifuRatings

open Matrix

/-- A curve that is never quite flat: every result stays possible at every difference. -/
def Link.Proper (link : Link ℝ) : Prop := ∀ x, 0 < link.sigmoid x ∧ link.sigmoid x < 1

theorem Link.logistic_proper : (Link.logistic : Link ℝ).Proper := by
  intro x
  rw [Logistic.sigmoid_eq]
  exact ⟨Real.sigmoid_pos x, Real.sigmoid_lt_one x⟩

/-! ## The precision -/

theorem Term.curvature_nonpos {ρ : Type} {link : Link ℝ} (proper : link.Proper) {term : Term ρ ℝ}
    (weighted : 0 ≤ term.weight) (x : ℝ) : term.curvature link x ≤ 0 := by
  obtain ⟨positive, belowOne⟩ := proper x
  unfold curvature
  split
  · apply mul_nonpos_of_nonpos_of_nonneg
    · exact mul_nonpos_of_nonpos_of_nonneg (neg_nonpos.mpr weighted) positive.le
    · exact sub_nonneg.mpr belowOne.le
  · exact neg_nonpos.mpr weighted

namespace Posterior

variable {size : Nat} (posterior : Posterior ℝ size)

theorem precision_symmetric (link : Link ℝ) (strengths : Vector ℝ size) :
    (posterior.precision link strengths).toMatrix.IsSymm := by
  apply Matrix.IsSymm.ext
  intro row column
  change (posterior.precision link strengths).entry column row =
    (posterior.precision link strengths).entry row column
  rw [precision_entry, precision_entry]
  apply sum_map_congr
  intro term _
  exact mul_right_comm _ _ _

theorem precision_semidefinite {link : Link ℝ} (proper : link.Proper)
    (weighted : ∀ term ∈ posterior.terms, 0 ≤ term.weight) (strengths : Vector ℝ size) :
    (posterior.precision link strengths).toMatrix.PosSemidef := by
  apply PosSemidef.of_dotProduct_mulVec_nonneg
  · rw [IsHermitian, conjTranspose_eq_transpose_of_trivial]
    exact posterior.precision_symmetric link strengths
  · intro direction
    rw [star_trivial, dot_precision]
    apply List.sum_nonneg
    intro share listed
    obtain ⟨term, member, rfl⟩ := List.mem_map.mp listed
    have bent := Term.curvature_nonpos proper (weighted term member) (combination strengths term)
    exact mul_nonneg (neg_nonneg.mpr bent) (mul_self_nonneg _)

theorem weights_of_terms {terms : List (Term String ℝ)}
    (weighted : ∀ term ∈ terms, 0 ≤ term.weight) :
    ∀ term ∈ (ofTerms terms).terms, 0 ≤ term.weight := by
  intro placed member
  obtain ⟨term, listed, rfl⟩ := List.mem_map.mp member
  exact weighted term listed

end Posterior

/-! ## Variances -/

namespace Grid

variable {size : Nat}

theorem mul_inverse {matrix inverse : Grid ℝ size} (inverted : matrix.inverse = some inverse) :
    matrix.toMatrix * inverse.toMatrix = 1 := by
  ext row column
  have solved := (inverse_unique inverted column fun row => inverse.entry row column).mpr rfl
  calc
    (matrix.toMatrix * inverse.toMatrix) row column =
        (matrix.toMatrix *ᵥ fun row => inverse.entry row column) row := rfl
    _ = (1 : Matrix (Fin size) (Fin size) ℝ) row column := by
      rw [solved, Pi.single_apply, one_apply]

theorem inverse_definite {matrix inverse : Grid ℝ size}
    (semidefinite : matrix.toMatrix.PosSemidef) (inverted : matrix.inverse = some inverse) :
    inverse.toMatrix.PosDef := by
  have product := mul_inverse inverted
  have definite : matrix.toMatrix.PosDef :=
    semidefinite.posDef_iff_isUnit.mpr (IsUnit.of_mul_eq_one _ product)
  rw [← inv_eq_right_inv product]
  exact definite.inv

variable (covariance : Grid ℝ size)

def variance (direction : Fin size → ℝ) : ℝ :=
  direction ⬝ᵥ (covariance.toMatrix *ᵥ direction)

def difference (left right : Fin size) : Fin size → ℝ := Pi.single left 1 - Pi.single right 1

theorem difference_ne_zero {left right : Fin size} (different : left ≠ right) :
    difference left right ≠ 0 := by
  intro nothing
  have atLeft := congrFun nothing left
  simp [difference, different] at atLeft

variable {covariance}

theorem variance_of_difference (symmetric : covariance.toMatrix.IsSymm) (left right : Fin size) :
    covariance.variance (difference left right) =
      covariance.entry left left + covariance.entry right right -
        2 * covariance.entry left right := by
  have turned : covariance.entry right left = covariance.entry left right :=
    symmetric.apply left right
  have entries : covariance.variance (difference left right) =
      covariance.entry left left - covariance.entry left right -
        (covariance.entry right left - covariance.entry right right) := by
    unfold variance difference
    rw [mulVec_sub, sub_dotProduct, single_one_dotProduct, single_one_dotProduct,
      mulVec_single_one, mulVec_single_one]
    rfl
  rw [entries, turned]
  ring

section Definite

variable (definite : covariance.toMatrix.PosDef)

include definite

theorem symmetric_of_definite : covariance.toMatrix.IsSymm := by
  rw [IsSymm, ← conjTranspose_eq_transpose_of_trivial]
  exact definite.isHermitian

theorem variance_pos {direction : Fin size → ℝ} (nonzero : direction ≠ 0) :
    0 < covariance.variance direction :=
  definite.dotProduct_mulVec_pos nonzero

theorem variance_nonneg (direction : Fin size → ℝ) : 0 ≤ covariance.variance direction :=
  definite.posSemidef.dotProduct_mulVec_nonneg direction

/-- Errors obey the triangle inequality, as they are the norm of the covariance: no covariance of
two directions exceeds the product of their errors. -/
theorem error_add_le (left right : Fin size → ℝ) :
    √(covariance.variance (left + right)) ≤
      √(covariance.variance left) + √(covariance.variance right) := by
  let form := covariance.toMatrix.toBilin'
  have told : ∀ direction, form direction direction = covariance.variance direction :=
    fun direction => toBilin'_apply' _ direction direction
  have turned : form right left = form left right :=
    (isSymm_toBilin'_iff_isSymm.mpr (symmetric_of_definite definite)).eq right left
  have bounded : form left right ^ 2 ≤ covariance.variance left * covariance.variance right := by
    have cauchy := LinearMap.BilinForm.apply_mul_apply_le_of_forall_zero_le form
      (fun direction => told direction ▸ variance_nonneg definite direction) left right
    rwa [turned, told, told, ← sq] at cauchy
  have expanded : covariance.variance (left + right) =
      covariance.variance left + 2 * form left right + covariance.variance right := by
    rw [← told, ← told, ← told, LinearMap.BilinForm.add_left, LinearMap.BilinForm.add_right,
      LinearMap.BilinForm.add_right, turned]
    ring
  have product : form left right ≤ √(covariance.variance left) * √(covariance.variance right) := by
    rw [← Real.sqrt_mul (variance_nonneg definite left)]
    exact Real.le_sqrt_of_sq_le bounded
  apply Real.sqrt_le_iff.mpr
  constructor
  · positivity
  · rw [expanded, add_sq, Real.sq_sqrt (variance_nonneg definite left),
      Real.sq_sqrt (variance_nonneg definite right), mul_assoc]
    linarith

end Definite

end Grid

namespace RatingList

/-- What the error of a difference is the root of. -/
noncomputable def spread (ratings : RatingList ℝ) (left right : Fin ratings.size) : ℝ :=
  ratings.covariance.entry left left + ratings.covariance.entry right right -
    2.0 * ratings.covariance.entry left right

theorem difference_error_eq_some {ratings : RatingList ℝ} {left right : String} {error : ℝ} :
    ratings.differenceError? left right = some error ↔
      ∃ i j, ratings.index? left = some i ∧ ratings.index? right = some j ∧
        √(max (ratings.spread i j) 0) = error := by
  unfold differenceError?
  simp only [Option.bind_eq_bind, Option.pure_def, Option.bind_eq_some_iff, Option.some.injEq]
  constructor
  · intro found
    obtain ⟨i, isLeft, j, isRight, same⟩ := found
    exact ⟨i, j, isLeft, isRight, same⟩
  · intro found
    obtain ⟨i, j, isLeft, isRight, same⟩ := found
    exact ⟨i, isLeft, j, isRight, same⟩

theorem name_of_index {ratings : RatingList ℝ} {name : String} {index : Fin ratings.size}
    (found : ratings.index? name = some index) : (ratings.entries.get index).name = name := by
  have chosen := @holds_of_find_fin_index _ _ ratings.entries (fun entry => entry.name == name)
    index found
  exact beq_iff_eq.mp chosen

theorem index_of_listed {ratings : RatingList ℝ} {name : String}
    (listed : name ∈ ratings.entries.toList.map (·.name)) :
    ∃ index, ratings.index? name = some index := by
  rw [← Option.ne_none_iff_exists']
  intro missing
  obtain ⟨entry, member, named⟩ := List.mem_map.mp listed
  have nobody := Vector.findFinIdx?_eq_none_iff.mp missing entry (Vector.mem_toList_iff.mp member)
  exact nobody (beq_iff_eq.mpr named)

/-- The uncertainties of a list are those of real variances. -/
structure TellsVariances (ratings : RatingList ℝ) : Prop where
  symmetric : ratings.covariance.toMatrix.IsSymm
  definite : ratings.covariance.toMatrix.PosDef
  error_positive : ∀ player, 0 < (ratings.entries.get player).stderr
  spread_unclamped : ∀ left right, Scalar.greater (ratings.spread left right) 0 =
    ratings.spread left right
  difference_listed : ∀ left ∈ ratings.entries.toList.map (·.name),
    ∀ right ∈ ratings.entries.toList.map (·.name),
      ∃ i j, ratings.index? left = some i ∧ ratings.index? right = some j ∧
        ratings.differenceError? left right = some √(ratings.spread i j)
  difference_turned : ∀ left right,
    ratings.differenceError? left right = ratings.differenceError? right left
  difference_alone : ∀ player error, ratings.differenceError? player player = some error →
    error = 0
  difference_positive : ∀ left right error, left ≠ right →
    ratings.differenceError? left right = some error → 0 < error
  difference_triangle : ∀ first second third direct one other,
    ratings.differenceError? first third = some direct →
    ratings.differenceError? first second = some one →
    ratings.differenceError? second third = some other → direct ≤ one + other

section Differences

variable {ratings : RatingList ℝ} (definite : ratings.covariance.toMatrix.PosDef)

include definite

theorem spread_eq_variance (left right : Fin ratings.size) :
    ratings.spread left right = ratings.covariance.variance (Grid.difference left right) := by
  have two : (2.0 : ℝ) = 2 := by norm_num
  rw [Grid.variance_of_difference (Grid.symmetric_of_definite definite), spread, two]

theorem spread_nonneg (left right : Fin ratings.size) : 0 ≤ ratings.spread left right := by
  rw [spread_eq_variance definite]
  exact Grid.variance_nonneg definite _

theorem difference_error_iff {left right : String} {error : ℝ} :
    ratings.differenceError? left right = some error ↔
      ∃ i j, ratings.index? left = some i ∧ ratings.index? right = some j ∧
        √(ratings.covariance.variance (Grid.difference i j)) = error := by
  rw [difference_error_eq_some]
  apply exists_congr
  intro i
  apply exists_congr
  intro j
  rw [max_eq_left (spread_nonneg definite i j), spread_eq_variance definite]

theorem difference_error_turned (left right : String) :
    ratings.differenceError? left right = ratings.differenceError? right left := by
  apply Option.ext
  intro error
  have turned : ∀ i j, ratings.covariance.variance (Grid.difference i j) =
      ratings.covariance.variance (Grid.difference j i) := by
    intro i j
    have opposite : Grid.difference i j = -Grid.difference j i := (neg_sub _ _).symm
    rw [opposite, Grid.variance, mulVec_neg, neg_dotProduct_neg, Grid.variance]
  rw [difference_error_iff definite, difference_error_iff definite]
  constructor
  · intro found
    obtain ⟨i, j, isLeft, isRight, same⟩ := found
    exact ⟨j, i, isRight, isLeft, turned i j ▸ same⟩
  · intro found
    obtain ⟨i, j, isRight, isLeft, same⟩ := found
    exact ⟨j, i, isLeft, isRight, turned i j ▸ same⟩

theorem difference_error_alone {player : String} {error : ℝ}
    (told : ratings.differenceError? player player = some error) : error = 0 := by
  obtain ⟨i, j, isFirst, isSecond, rfl⟩ := (difference_error_iff definite).mp told
  have same : i = j := Option.some.inj (isFirst.symm.trans isSecond)
  rw [same, Grid.difference, sub_self, Grid.variance, mulVec_zero, zero_dotProduct, Real.sqrt_zero]

theorem difference_error_pos {left right : String} {error : ℝ} (different : left ≠ right)
    (told : ratings.differenceError? left right = some error) : 0 < error := by
  obtain ⟨i, j, isLeft, isRight, rfl⟩ := (difference_error_iff definite).mp told
  have apart : i ≠ j := by
    intro same
    rw [same] at isLeft
    exact different ((name_of_index isLeft).symm.trans (name_of_index isRight))
  exact Real.sqrt_pos.mpr (Grid.variance_pos definite (Grid.difference_ne_zero apart))

theorem difference_error_triangle {first second third : String} {direct one other : ℝ}
    (toThird : ratings.differenceError? first third = some direct)
    (toSecond : ratings.differenceError? first second = some one)
    (fromSecond : ratings.differenceError? second third = some other) : direct ≤ one + other := by
  obtain ⟨i, k, isFirst, isThird, rfl⟩ := (difference_error_iff definite).mp toThird
  obtain ⟨i', j, isFirst', isSecond, rfl⟩ := (difference_error_iff definite).mp toSecond
  obtain ⟨j', k', isSecond', isThird', rfl⟩ := (difference_error_iff definite).mp fromSecond
  obtain rfl : i = i' := Option.some.inj (isFirst.symm.trans isFirst')
  obtain rfl : j = j' := Option.some.inj (isSecond.symm.trans isSecond')
  obtain rfl : k = k' := Option.some.inj (isThird.symm.trans isThird')
  have through : Grid.difference i k = Grid.difference i j + Grid.difference j k :=
    (sub_add_sub_cancel _ _ _).symm
  rw [through]
  exact Grid.error_add_le definite _ _

end Differences

/-! ## The uncertainties of a fit -/

theorem elo_per_strength_pos : 0 < (Term.eloPerStrength : ℝ) := by
  change 0 < (400.0 : ℝ) / 2.302585092994046
  norm_num

section Fitted

variable {size : Nat} (players : Vector String size) (strengths : Vector ℝ size)
  {covariance : Grid ℝ size} (definite : covariance.toMatrix.PosDef)

include definite

theorem diagonal_unclamped (player : Fin size) :
    Scalar.greater (covariance.entry player player) 0 = covariance.entry player player := by
  have positive : 0 < covariance.entry player player := definite.diag_pos
  exact max_eq_left positive.le

omit definite in
theorem covariance_of_strengths (row column : Fin size) :
    (ofStrengths players strengths covariance).covariance.entry row column =
      covariance.entry row column * (Term.eloPerStrength * Term.eloPerStrength) := by
  unfold ofStrengths
  dsimp only
  rw [Grid.entry, Vector.get_map, Vector.get_map]
  rfl

theorem scaled_definite :
    (ofStrengths players strengths covariance).covariance.toMatrix.PosDef := by
  have scaled : (ofStrengths players strengths covariance).covariance.toMatrix =
      ((Term.eloPerStrength : ℝ) * Term.eloPerStrength) • covariance.toMatrix := by
    ext row column
    exact (covariance_of_strengths players strengths row column).trans (mul_comm _ _)
  rw [scaled]
  exact definite.smul (mul_pos elo_per_strength_pos elo_per_strength_pos)

theorem tells_variances : (ofStrengths players strengths covariance).TellsVariances where
  symmetric := Grid.symmetric_of_definite (scaled_definite players strengths definite)
  definite := scaled_definite players strengths definite
  error_positive := by
    intro player
    have positive : 0 < covariance.entry player player := definite.diag_pos
    have told := congrArg Rating.stderr (entry_of_strengths players strengths covariance player)
    rw [diagonal_unclamped definite player] at told
    exact told ▸ mul_pos (Real.sqrt_pos.mpr positive) elo_per_strength_pos
  spread_unclamped left right :=
    max_eq_left (spread_nonneg (scaled_definite players strengths definite) left right)
  difference_listed := by
    intro left leftListed right rightListed
    obtain ⟨i, isLeft⟩ := index_of_listed leftListed
    obtain ⟨j, isRight⟩ := index_of_listed rightListed
    have told := difference_error_eq_some.mpr ⟨i, j, isLeft, isRight, rfl⟩
    rw [max_eq_left (spread_nonneg (scaled_definite players strengths definite) i j)] at told
    exact ⟨i, j, isLeft, isRight, told⟩
  difference_turned := difference_error_turned (scaled_definite players strengths definite)
  difference_alone _ _ := difference_error_alone (scaled_definite players strengths definite)
  difference_positive _ _ _ := difference_error_pos (scaled_definite players strengths definite)
  difference_triangle _ _ _ _ _ _ :=
    difference_error_triangle (scaled_definite players strengths definite)

end Fitted

end RatingList

namespace Fit

/-- Terms whose weights are not negative have a precision that is symmetric and semidefinite at all
strengths. The covariance of a fit is its inverse, and the uncertainties that are told of this
covariance are those of real variances. -/
theorem uncertainties_are_variances {link : Link ℝ} (proper : link.Proper)
    {terms : List (Term String ℝ)} (weighted : ∀ term ∈ terms, 0 ≤ term.weight) :
    (∀ strengths, ((Posterior.ofTerms terms).precision link strengths).toMatrix.IsSymm ∧
      ((Posterior.ofTerms terms).precision link strengths).toMatrix.PosSemidef) ∧
    ∀ settings ratings, estimate link settings terms = .ok ratings →
      ratings.TellsVariances ∧ ratings.entries.toList.map (·.name) = Posterior.playersOf terms ∧
      ∃ strengths covariance,
        ((Posterior.ofTerms terms).precision link strengths).inverse = some covariance ∧
        ratings =
          RatingList.ofStrengths (Posterior.ofTerms terms).players strengths covariance ∧
        covariance.toMatrix.PosDef ∧
        ∀ player, Scalar.greater (covariance.entry player player) 0 =
          covariance.entry player player := by
  have semidefinite := (Posterior.ofTerms terms).precision_semidefinite proper
    (Posterior.weights_of_terms weighted)
  constructor
  · intro strengths
    exact ⟨(Posterior.ofTerms terms).precision_symmetric link strengths, semidefinite strengths⟩
  · intro settings ratings estimated
    have names := names_of_estimate estimated
    obtain ⟨strengths, covariance, _, inverted, rfl⟩ := estimate_eq_ok estimated
    have definite := Grid.inverse_definite (semidefinite strengths) inverted
    exact ⟨RatingList.tells_variances _ strengths definite, names, strengths, covariance, inverted,
      rfl, definite, RatingList.diagonal_unclamped definite⟩

end Fit

namespace Crosstable

open ScoreMatrix

def evenPair : Crosstable := empty.add ⟨"a", "b"⟩ ⟨1, 1, 0⟩

theorem even_pair_scores (player opponent : Fin (ofTable evenPair).size) :
    (ofTable evenPair).won player opponent = (ofTable evenPair).won opponent player := by
  have cells : ∀ player opponent, (ofTable evenPair).cell player opponent =
      (ofTable evenPair).cell opponent player := by decide +kernel
  rw [won, cells]
  rfl

theorem even_pair_firm : neglectedWeight evenPair 1 < 1 / 4 := by
  have games : totalWon evenPair = 2 := by
    have counted : evenPair.played = 2 ∧ evenPair.gamesAlone = 0 := by decide +kernel
    rw [total_won_eq (by rw [counted.1]; decide), counted.1, counted.2]
    norm_num
  have size : (ofTable evenPair).size = 2 := by decide +kernel
  rw [neglectedWeight, entryBound, games, size]
  change _ * ((1e-12 : ℝ) * _) < _
  norm_num

theorem even_pair_is_rated {settings : FitSettings ℝ} (some : 0 < settings.maxIterations)
    (tolerant : 0 < settings.tolerance) :
    ∃ ratings : RatingList ℝ, evenPair.rate Link.logistic settings 0 1 = .ok ratings := by
  obtain ⟨covariance, rated⟩ := even_table_is_rated one_pos even_pair_scores (by decide +kernel)
    even_pair_firm some tolerant
  exact ⟨_, rated⟩

theorem even_pair_tells_variances : Link.Proper Link.logistic ∧
    (∀ term ∈ (ofTable evenPair).terms 0 1, 0 ≤ (term : Term String ℝ).weight) ∧
    ∃ ratings : RatingList ℝ,
      evenPair.rate Link.logistic Fit.defaultSettings 0 1 = .ok ratings ∧
      ratings.TellsVariances := by
  have weighted := weight_nonneg evenPair 0 1
  have tolerant : 0 < (Fit.defaultSettings : FitSettings ℝ).tolerance := by norm_num
  obtain ⟨ratings, rated⟩ := even_pair_is_rated (Nat.zero_lt_succ 199) tolerant
  exact ⟨Link.logistic_proper, weighted, ratings, rated,
    ((Fit.uncertainties_are_variances Link.logistic_proper weighted).2 _ _
      (estimate_of_rate rated)).1⟩

end Crosstable

end KifuRatings
