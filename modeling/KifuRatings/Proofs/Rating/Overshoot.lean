import KifuRatings.Proofs.Rating.Ascent
import KifuRatings.Proofs.Rating.MeanRating
import KifuRatings.Proofs.Rating.Uncertainty

/-!
# Line searches that fall

A line search halves a step as long as it leads down, but only above a floor. What is left at the
floor is taken although it may lead down. If no weight is negative, the log posterior is concave:
once a part of a step leads down, every longer part does, so a line search falls exactly if the
floor's part of the step does. That takes a step far longer than the terms allow that bend: none
falls from where all combinations of sigmoid terms are within 20 of zero. From further away a Newton
step can overshoot the maximum so far that the floor's part of it still leads down, and a fit is
returned that is worse than its start.
-/

namespace KifuRatings

open Logistic Matrix ScoreMatrix Crosstable

namespace Fit

variable {size : Nat}

/-! ## The loop -/

section Loop

variable {link : Link ℝ} {posterior : Posterior ℝ size} {start : Position ℝ size}
  {step : Vector ℝ size}

variable (link posterior start step) in
def Falls (scale : ℝ) : Prop :=
  posterior.value link (shift start.strengths step scale) < start.value

variable (link posterior start step) in
def Halves (scale : ℝ) : Prop := Falls link posterior start step scale ∧ 1e-8 < scale

theorem line_search_halves (halvings : Nat) (scale : ℝ) :
    ∃ halved ≤ halvings, lineSearch link posterior start step halvings scale =
        (scale * 0.5 ^ halved,
          position link posterior (shift start.strengths step (scale * 0.5 ^ halved))) ∧
      (∀ earlier < halved, Falls link posterior start step (scale * 0.5 ^ earlier)) ∧
      (halved < halvings → ¬Falls link posterior start step (scale * 0.5 ^ halved)) := by
  induction halvings generalizing scale with
  | zero => exact ⟨0, le_refl 0, by simp [lineSearch], by simp, by simp⟩
  | succ halvings induction =>
      by_cases falls : Falls link posterior start step scale
      · obtain ⟨halved, few, ended, before, stops⟩ := induction (scale * 0.5)
        have next : ∀ count : Nat, scale * 0.5 * 0.5 ^ count = scale * 0.5 ^ (count + 1) := by
          intro count
          ring
        simp only [next] at ended before stops
        refine ⟨halved + 1, Nat.succ_le_succ few, ?_, ?_, ?_⟩
        · rw [lineSearch, if_pos (show (position link posterior _).value < start.value from falls)]
          exact ended
        · intro earlier sooner
          cases earlier with
          | zero => rwa [pow_zero, mul_one]
          | succ earlier => exact before earlier (Nat.lt_of_succ_lt_succ sooner)
        · intro early
          exact stops (Nat.lt_of_succ_lt_succ early)
      · refine ⟨0, Nat.zero_le _, ?_, by simp, ?_⟩
        · rw [pow_zero, mul_one]
          exact line_search_accepted falls _
        · intro _
          rwa [pow_zero, mul_one]

theorem above_floor_iff {halved : Nat} : (1e-8 : ℝ) < 0.5 ^ halved ↔ halved < maxHalvings := by
  constructor
  · intro above
    by_contra late
    have small : (0.5 : ℝ) ^ halved ≤ 0.5 ^ maxHalvings :=
      pow_le_pow_of_le_one (by norm_num) (by norm_num) (not_lt.mp late)
    have floor : (0.5 : ℝ) ^ maxHalvings ≤ 1e-8 := by norm_num [maxHalvings]
    linarith
  · intro early
    have large : (0.5 : ℝ) ^ 26 ≤ 0.5 ^ halved :=
      pow_le_pow_of_le_one (by norm_num) (by norm_num) (Nat.le_of_lt_succ early)
    have floor : (1e-8 : ℝ) < 0.5 ^ 26 := by norm_num
    linarith

variable (link posterior start step) in
/-- The loop ends: the whole step is halved a few times, each time because it leads down above the
floor, and then one of the two fails. -/
theorem line_search_loop : ∃ halved,
    lineSearch link posterior start step maxHalvings 1 =
      (0.5 ^ halved, position link posterior (shift start.strengths step (0.5 ^ halved))) ∧
    (∀ earlier < halved, Halves link posterior start step (0.5 ^ earlier)) ∧
    ¬Halves link posterior start step (0.5 ^ halved) := by
  obtain ⟨halved, few, ended, before, stops⟩ :=
    @line_search_halves _ link posterior start step maxHalvings 1
  simp only [one_mul] at ended before stops
  refine ⟨halved, ended, ?_, ?_⟩
  · intro earlier sooner
    exact ⟨before earlier sooner, above_floor_iff.mpr (sooner.trans_le few)⟩
  · intro halves
    exact stops (above_floor_iff.mp halves.2) halves.1

theorem line_search_falls_iff :
    (lineSearch link posterior start step maxHalvings 1).2.value < start.value ↔
      ∀ halved ≤ maxHalvings, Falls link posterior start step (0.5 ^ halved) := by
  obtain ⟨halved, few, ended, before, stops⟩ :=
    @line_search_halves _ link posterior start step maxHalvings 1
  simp only [one_mul] at ended before stops
  rw [ended]
  change Falls link posterior start step (0.5 ^ halved) ↔ _
  constructor
  · intro falls count bound
    have last : halved = maxHalvings := few.eq_of_not_lt fun early => stops early falls
    rcases bound.eq_or_lt with isLast | sooner
    · rwa [isLast, ← last]
    · exact before count (last ▸ sooner)
  · intro all
    exact all halved few

end Loop

/-! ## Concave posteriors -/

section Concave

variable {posterior : Posterior ℝ size} (nonneg : ∀ term ∈ posterior.terms, 0 ≤ term.weight)

include nonneg

theorem value_shift_le (strengths step : Vector ℝ size) (scale : ℝ) :
    posterior.value Link.logistic (shift strengths step scale) ≤
      posterior.value Link.logistic strengths
        + scale * (step.get ⬝ᵥ (posterior.gradient Link.logistic strengths).get) := by
  have plane := Posterior.value_le_plane nonneg strengths (shift strengths step scale)
  have moved : (shift strengths step scale).get - strengths.get = scale • step.get := by
    funext player
    rw [Pi.sub_apply, get_shift, add_sub_cancel_left]
    rfl
  rwa [moved, smul_dotProduct] at plane

theorem falls_further {start : Position ℝ size}
    (looked : start = position Link.logistic posterior start.strengths) {step : Vector ℝ size}
    {scale longer : ℝ} (positive : 0 < scale) (further : scale ≤ longer)
    (falls : Falls Link.logistic posterior start step scale) :
    Falls Link.logistic posterior start step longer := by
  unfold Falls at falls ⊢
  rw [value_of_position looked] at falls ⊢
  let nearer := shift start.strengths step scale
  let slope := step.get ⬝ᵥ (posterior.gradient Link.logistic nearer).get
  have moved : ∀ change,
      shift nearer step change = shift start.strengths step (scale + change) := by
    intro change
    apply vector_ext
    intro player
    simp only [nearer, get_shift]
    ring
  have back : posterior.value Link.logistic start.strengths ≤
      posterior.value Link.logistic nearer + -scale * slope := by
    have origin : shift nearer step (-scale) = start.strengths := by
      rw [moved, add_neg_cancel]
      apply vector_ext
      intro player
      rw [get_shift, zero_mul, add_zero]
    have tangent := value_shift_le nonneg nearer step (-scale)
    rwa [origin] at tangent
  have down : slope ≤ 0 := by
    have product : scale * slope < 0 := by linarith
    exact (neg_of_mul_neg_right product positive.le).le
  have ahead := value_shift_le nonneg nearer step (longer - scale)
  rw [moved, add_sub_cancel] at ahead
  have loss := mul_nonpos_of_nonneg_of_nonpos (sub_nonneg.mpr further) down
  linarith

/-- A line search falls exactly if the floor's part of the step leads down. -/
theorem line_search_falls_at_floor {start : Position ℝ size}
    (looked : start = position Link.logistic posterior start.strengths) {step : Vector ℝ size} :
    (lineSearch Link.logistic posterior start step maxHalvings 1).2.value < start.value ↔
      Falls Link.logistic posterior start step (0.5 ^ maxHalvings) := by
  rw [line_search_falls_iff]
  constructor
  · intro all
    exact all maxHalvings le_rfl
  · intro falls halved few
    exact falls_further nonneg looked (by positivity)
      (pow_le_pow_of_le_one (by norm_num) (by norm_num) few) falls

theorem line_search_at_floor {start : Position ℝ size}
    (looked : start = position Link.logistic posterior start.strengths) {step : Vector ℝ size}
    (falls : Falls Link.logistic posterior start step (0.5 ^ maxHalvings)) :
    lineSearch Link.logistic posterior start step maxHalvings 1 = (0.5 ^ maxHalvings,
      position Link.logistic posterior (shift start.strengths step (0.5 ^ maxHalvings))) := by
  obtain ⟨halved, few, ended, _, stops⟩ :=
    @line_search_halves _ Link.logistic posterior start step maxHalvings 1
  simp only [one_mul] at ended stops
  have last : halved = maxHalvings := by
    apply few.eq_of_not_lt
    intro early
    exact stops early (falls_further nonneg looked (by positivity)
      (pow_le_pow_of_le_one (by norm_num) (by norm_num) few) falls)
  rw [ended, last]

end Concave

/-! ## Near zero -/

/-- The combinations of all sigmoid terms are where the curve bends. -/
def Near (posterior : Posterior ℝ size) (strengths : Vector ℝ size) : Prop :=
  ∀ term ∈ posterior.terms, term.shape = .sigmoid →
    |Posterior.combination strengths term| ≤ 20

theorem bend_near {x : ℝ} (near : |x| ≤ 20) : 1 / 4 ≤ 2 ^ 27 * bend x := by
  have twenty : bend 20 ≤ bend x := bend_le_bend (by rwa [abs_of_pos (by norm_num : (0 : ℝ) < 20)])
  have power : Real.exp 20 ≤ 4.9e8 := by
    calc
      Real.exp 20 = Real.exp 1 ^ 20 := by
        rw [Real.exp_one_pow]
        norm_num
      _ ≤ 2.7182818286 ^ 20 :=
        pow_le_pow_left₀ (Real.exp_pos 1).le Real.exp_one_lt_d9.le 20
      _ ≤ 4.9e8 := by norm_num
  have back : Real.exp (-20) ≤ 1 := Real.exp_le_one_iff.mpr (by norm_num)
  have least : (5e8 : ℝ)⁻¹ ≤ bend 20 := by
    rw [bend_eq_cosh, Real.cosh_eq]
    have positive := Real.exp_pos 20
    have positiveBack := Real.exp_pos (-20)
    exact inv_anti₀ (by positivity) (by linarith)
  norm_num at least ⊢
  linarith

theorem drag_le_of_near {term : Term (Fin size) ℝ} (nonneg : 0 ≤ term.weight) {x : ℝ}
    (near : term.shape = .sigmoid → |x| ≤ 20) :
    term.drag ≤ 2 ^ 27 * -term.curvature Link.logistic x := by
  obtain ⟨combo, offset, weight, shape⟩ := term
  cases shape with
  | sigmoid =>
      have bent := mul_le_mul_of_nonneg_left (bend_near (near rfl)) nonneg
      rw [Term.curvature_sigmoid]
      change weight / 4 ≤ _
      simp only at bent
      linarith
  | gaussian =>
      change weight / 2 ≤ 2 ^ 27 * -(-weight)
      simp only at nonneg
      linarith

section Climbing

variable {posterior : Posterior ℝ size} (nonneg : ∀ term ∈ posterior.terms, 0 ≤ term.weight)

include nonneg

theorem line_search_ascends_of_near
    {start : Position ℝ size} (looked : start = position Link.logistic posterior start.strengths)
    {step : Vector ℝ size} (found : newtonStep Link.logistic posterior start.strengths = some step)
    (near : Near posterior start.strengths) :
    start.value ≤ (lineSearch Link.logistic posterior start step maxHalvings 1).2.value := by
  apply line_search_ascends_of_drag nonneg looked
  rw [← (Grid.solve_unique found step.get).mpr rfl, Posterior.dot_precision, dragAlong,
    ← List.sum_map_mul_left]
  apply List.sum_le_sum
  intro term member
  have drag := mul_le_mul_of_nonneg_right (drag_le_of_near (nonneg term member) (near term member))
    (sq_nonneg (term.along step.get))
  linarith

theorem search_ascends_of_near {settings : FitSettings ℝ} {strengths : Vector ℝ size}
    (ended : search Link.logistic settings posterior = .ok strengths)
    (near : ∀ stride ∈ searchStrides Link.logistic settings posterior,
      Near posterior stride.start.strengths) :
    posterior.value Link.logistic (Vector.replicate size 0) ≤
      posterior.value Link.logistic strengths := by
  let Above (reached : Position ℝ size) : Prop :=
    reached = position Link.logistic posterior reached.strengths ∧
      posterior.value Link.logistic (Vector.replicate size 0) ≤ reached.value
  have kept : ∀ stride ∈ searchStrides Link.logistic settings posterior,
      Above stride.start → Above stride.reached := by
    intro stride listed above
    obtain ⟨before, after, split⟩ := List.append_of_mem listed
    have taken := (strides_behind split).1
    obtain ⟨_, found, searched⟩ := stride_eq_some taken
    have rises := line_search_ascends_of_near nonneg above.1 found (near stride listed)
    rw [searched] at rises
    exact ⟨reached_is_position taken, above.2.trans rises⟩
  obtain ⟨earlier, last, listed, _, rfl⟩ := climb_ends ended
  have isLast : last ∈ searchStrides Link.logistic settings posterior := by
    rw [searchStrides, listed]
    exact List.mem_append_right _ (List.mem_singleton_self last)
  obtain ⟨_, looked, above⟩ := strides_keep_along ⟨rfl, le_refl _⟩ kept last isLast
  rwa [value_of_position looked] at above

end Climbing

/-- The loop of every line search ends, whatever the terms are, and falls only if all parts of the
step that it looks at lead down. If no weight is negative, that is if the floor's part of the step
leads down, which never happens near zero. So the log posterior of a fit that was near zero all the
way is not below that of the start. -/
theorem line_searches_fall_from_afar (terms : List (Term String ℝ)) :
    (∀ link start step, ∃ halved,
      lineSearch link (Posterior.ofTerms terms) start step maxHalvings 1 =
        (0.5 ^ halved,
          position link (Posterior.ofTerms terms) (shift start.strengths step (0.5 ^ halved))) ∧
      (∀ earlier < halved, Halves link (Posterior.ofTerms terms) start step (0.5 ^ earlier)) ∧
      ¬Halves link (Posterior.ofTerms terms) start step (0.5 ^ halved)) ∧
    (∀ link start step,
      (lineSearch link (Posterior.ofTerms terms) start step maxHalvings 1).2.value < start.value ↔
        ∀ halved ≤ maxHalvings,
          Falls link (Posterior.ofTerms terms) start step (0.5 ^ halved)) ∧
    ((∀ term ∈ terms, 0 ≤ term.weight) →
      (∀ start stride, start = position Link.logistic (Posterior.ofTerms terms) start.strengths →
        stride? Link.logistic (Posterior.ofTerms terms) start = some stride →
          (stride.reached.value < start.value ↔
            Falls Link.logistic (Posterior.ofTerms terms) start stride.step
              (0.5 ^ maxHalvings)) ∧
          (Near (Posterior.ofTerms terms) start.strengths →
            start.value ≤ stride.reached.value)) ∧
      ∀ settings ratings, estimate Link.logistic settings terms = .ok ratings →
        ∃ strengths covariance,
          ratings = RatingList.ofStrengths (Posterior.ofTerms terms).players strengths covariance ∧
          search Link.logistic settings (Posterior.ofTerms terms) = .ok strengths ∧
          ((∀ stride ∈ searchStrides Link.logistic settings (Posterior.ofTerms terms),
              Near (Posterior.ofTerms terms) stride.start.strengths) →
            (Posterior.ofTerms terms).value Link.logistic (Vector.replicate _ 0) ≤
              (Posterior.ofTerms terms).value Link.logistic strengths)) := by
  refine ⟨?_, ?_, ?_⟩
  · intro link start step
    exact line_search_loop link _ start step
  · intro link start step
    exact line_search_falls_iff
  · intro weighted
    have nonneg := Posterior.weights_of_terms weighted
    constructor
    · intro start stride looked taken
      obtain ⟨_, found, searched⟩ := stride_eq_some taken
      have reached : stride.reached = (lineSearch Link.logistic (Posterior.ofTerms terms) start
          stride.step maxHalvings 1).2 := by rw [searched]
      rw [reached]
      exact ⟨line_search_falls_at_floor nonneg looked,
        line_search_ascends_of_near nonneg looked found⟩
    · intro settings ratings estimated
      obtain ⟨strengths, covariance, ended, _, same⟩ := estimate_eq_ok estimated
      exact ⟨strengths, covariance, same, ended, search_ascends_of_near nonneg ended⟩

/-- Three players who won as often against each other, and a distant prior for their mean. -/
noncomputable def distantTerms : List (Term String ℝ) := (ofTable evenTriangle).terms 3400 0

theorem near_of_level {table : Crosstable} {prior height : ℝ}
    {strengths : Vector ℝ (ofTable table).size}
    (level : ∀ player, strengths.get player = height) :
    Near ((ofTable table).posterior prior 0) strengths := by
  intro term member isSigmoid
  rcases mem_terms table prior 0 member with ⟨winner, loser, _, rfl⟩ | ⟨drawn, _⟩ | rfl
  · rw [combination_wins, level, level, sub_self, abs_zero]
    norm_num
  · exact absurd drawn (lt_irrefl 0)
  · cases isSigmoid

theorem distant_search :
    (∃ strengths, search Link.logistic defaultSettings (Posterior.ofTerms distantTerms) =
        .ok strengths ∧ ∀ player, strengths.get player = strengthOf 3400) ∧
    ∀ stride ∈ searchStrides Link.logistic defaultSettings (Posterior.ofTerms distantTerms),
      Near (Posterior.ofTerms distantTerms) stride.start.strengths := by
  have listed : 0 < (ofTable evenTriangle).size := by decide +kernel
  have tolerant : 0 < (defaultSettings : FitSettings ℝ).tolerance := by norm_num
  have several : 2 ≤ (defaultSettings : FitSettings ℝ).maxIterations := by norm_num
  apply Posterior.of_names (players_of_terms evenTriangle 3400 0) fun posterior =>
    (∃ strengths, search Link.logistic defaultSettings posterior = .ok strengths ∧
      ∀ player, strengths.get player = strengthOf 3400) ∧
    ∀ stride ∈ searchStrides Link.logistic defaultSettings posterior,
      Near posterior stride.start.strengths
  constructor
  · obtain ⟨strengths, ended, reached, _⟩ := search_of_even even_triangle_scores
      even_triangle_linked even_triangle_sees_one_draw listed several tolerant
    exact ⟨strengths, ended, reached⟩
  · intro stride member
    obtain ⟨height, level⟩ := strides_level even_triangle_scores even_triangle_linked
      even_triangle_sees_one_draw listed _ stride member
    exact near_of_level level

theorem even_triangle_never_falls :
    (∀ term ∈ distantTerms, 0 ≤ term.weight) ∧
    ∃ ratings strengths, estimate Link.logistic defaultSettings distantTerms = .ok ratings ∧
      search Link.logistic defaultSettings (Posterior.ofTerms distantTerms) = .ok strengths ∧
      (∀ player, strengths.get player = strengthOf 3400) ∧
      (∀ stride ∈ searchStrides Link.logistic defaultSettings (Posterior.ofTerms distantTerms),
        Near (Posterior.ofTerms distantTerms) stride.start.strengths) ∧
      (Posterior.ofTerms distantTerms).value Link.logistic (Vector.replicate _ 0) ≤
        (Posterior.ofTerms distantTerms).value Link.logistic strengths := by
  have weighted := weight_nonneg evenTriangle 3400 0
  obtain ⟨⟨reached, searched, atPrior⟩, near⟩ := distant_search
  have tolerant : 0 < (defaultSettings : FitSettings ℝ).tolerance := by norm_num
  obtain ⟨⟨ratings, rated⟩, _⟩ := linked_even_table_is_rated even_triangle_scores
    even_triangle_linked even_triangle_sees_one_draw (by decide +kernel) (by decide) tolerant 3400
  have estimated := estimate_of_rate rated
  obtain ⟨strengths, _, _, ended, rises⟩ :=
    ((line_searches_fall_from_afar distantTerms).2.2 weighted).2 defaultSettings ratings estimated
  obtain rfl : reached = strengths := Except.ok.inj (searched.symm.trans ended)
  exact ⟨weighted, ratings, reached, estimated, ended, atPrior, near, rises near⟩

/-! ## A fit below its start -/

theorem estimate_of_search {link : Link ℝ} {settings : FitSettings ℝ}
    {terms : List (Term String ℝ)} (somebody : (Posterior.playersOf terms).isEmpty = false)
    {strengths : Vector ℝ (Posterior.playersOf terms).length}
    {covariance : Grid ℝ (Posterior.playersOf terms).length}
    (ended : search link settings (Posterior.ofTerms terms) = .ok strengths)
    (inverted : ((Posterior.ofTerms terms).precision link strengths).inverse = some covariance) :
    estimate link settings terms =
      .ok (RatingList.ofStrengths (Posterior.ofTerms terms).players strengths covariance) := by
  rw [estimate_eq link settings rfl, somebody]
  change (search link settings (Posterior.ofTerms terms)
    >>= ratingsAt link (Posterior.ofTerms terms)) = _
  rw [ended]
  change ratingsAt link (Posterior.ofTerms terms) strengths = _
  rw [ratingsAt, inverted]

/-- Two draws told of a far multiple of one strength, and priors for two players. -/
noncomputable def overshooting : List (Term String ℝ) :=
  [⟨[("a", 5e12)], -25, 0.5, .sigmoid⟩, ⟨[("a", -5e12)], 25, 0.5, .sigmoid⟩,
    ⟨[("a", 1)], 0, 1e4, .gaussian⟩, ⟨[("b", 1)], -0.01, 1e13, .gaussian⟩]

namespace Overshooting

noncomputable def posterior : Posterior ℝ 2 where
  players := #v["a", "b"]
  terms :=
    [⟨[(0, 5e12)], -25, 0.5, .sigmoid⟩, ⟨[(0, -5e12)], 25, 0.5, .sigmoid⟩,
      ⟨[(0, 1)], 0, 1e4, .gaussian⟩, ⟨[(1, 1)], -0.01, 1e13, .gaussian⟩]

theorem names : Posterior.playersOf overshooting = ["a", "b"] := by
  change sortedNames ["a", "a", "a", "b"] = ["a", "b"]
  decide +kernel

theorem weighted : ∀ term ∈ overshooting, 0 < term.weight := by
  simp only [overshooting, List.mem_cons, List.not_mem_nil, or_false, forall_eq_or_imp, forall_eq]
  norm_num

theorem placed : (⟨⟨["a", "b"].toArray, rfl⟩,
    overshooting.map (Posterior.place ⟨["a", "b"].toArray, rfl⟩)⟩ : Posterior ℝ 2) =
      posterior := by
  have first : (#v["a", "b"] : Vector String 2).finIdxOf? "a" = some 0 := by decide +kernel
  have second : (#v["a", "b"] : Vector String 2).finIdxOf? "b" = some 1 := by decide +kernel
  have players : (⟨["a", "b"].toArray, rfl⟩ : Vector String 2) = #v["a", "b"] := rfl
  rw [players, posterior]
  simp only [overshooting, List.map_cons, List.map_nil, Posterior.place, List.filterMap_cons,
    List.filterMap_nil, first, second, Option.map_some]

noncomputable def reach (strengths : Vector ℝ 2) : ℝ := 5e12 * strengths.get 0 - 25

variable (strengths : Vector ℝ 2)

theorem reach_told : 5e12 * strengths.get 0 + -25 = reach strengths := (sub_eq_add_neg _ _).symm

theorem reach_told_back : -5e12 * strengths.get 0 + 25 = -reach strengths := by
  rw [reach]
  ring

theorem value_eq : posterior.value Link.logistic strengths =
    -drawLoss (reach strengths) / 2 - 5000 * strengths.get 0 ^ 2
      - 5e12 * (strengths.get 1 - 0.01) ^ 2 := by
  have gaussian : ∀ (combo : List (Fin 2 × ℝ)) (offset weight x : ℝ),
      Term.value (Link.logistic : Link ℝ) ⟨combo, offset, weight, .gaussian⟩ x =
        -0.5 * weight * x * x := fun _ _ _ _ => rfl
  rw [Posterior.value_eq, posterior]
  simp only [List.map_cons, List.map_nil, List.sum_cons, List.sum_nil,
    ScoreMatrix.combination_single, Term.value_sigmoid, gaussian, reach_told,
    reach_told_back, neg_neg, drawLoss]
  ring

theorem dot_precision_eq (left right : Fin 2 → ℝ) :
    left ⬝ᵥ ((posterior.precision Link.logistic strengths).toMatrix *ᵥ right) =
      (25e24 * bend (reach strengths) + 1e4) * (left 0 * right 0) + 1e13 * (left 1 * right 1) := by
  have gaussian : ∀ (combo : List (Fin 2 × ℝ)) (offset weight x : ℝ),
      -Term.curvature (Link.logistic : Link ℝ) ⟨combo, offset, weight, .gaussian⟩ x = weight :=
    fun _ _ _ _ => neg_neg _
  rw [Posterior.dot_precision, posterior]
  simp only [List.map_cons, List.map_nil, List.sum_cons, List.sum_nil,
    ScoreMatrix.combination_single, Term.curvature_sigmoid, gaussian, reach_told,
    reach_told_back, bend_neg, Term.along_single]
  ring

theorem dot_gradient_eq (direction : Fin 2 → ℝ) :
    direction ⬝ᵥ (posterior.gradient Link.logistic strengths).get =
      (2.5e12 * (Real.sigmoid (-reach strengths) - Real.sigmoid (reach strengths))
        - 1e4 * strengths.get 0) * direction 0
      - 1e13 * (strengths.get 1 - 0.01) * direction 1 := by
  have gaussian : ∀ (combo : List (Fin 2 × ℝ)) (offset weight x : ℝ),
      Term.slope (Link.logistic : Link ℝ) ⟨combo, offset, weight, .gaussian⟩ x = -weight * x :=
    fun _ _ _ _ => rfl
  rw [Posterior.dot_gradient, posterior]
  simp only [List.map_cons, List.map_nil, List.sum_cons, List.sum_nil,
    ScoreMatrix.combination_single, Term.slope_sigmoid, gaussian, reach_told,
    reach_told_back, neg_neg, Term.along_single]
  ring

/-! ### Its systems -/

theorem steep : (posterior.precision Link.logistic strengths).Steep 1e4 := by
  intro direction
  have bent := mul_nonneg (bend_pos (reach strengths)).le (sq_nonneg (direction 0))
  have other := sq_nonneg (direction 1)
  rw [dot_precision_eq, Fin.sum_univ_two]
  linarith

theorem bend_far {x : ℝ} (far : 25 ≤ |x|) : bend x ≤ 1 / 5.2e10 := by
  calc
    bend x ≤ Real.exp (-25) := (bend_le_exp x).trans (Real.exp_le_exp.mpr (neg_le_neg far))
    _ = 1 / Real.exp 25 := by rw [Real.exp_neg, one_div]
    _ ≤ 1 / 5.2e10 := one_div_le_one_div_of_le (by norm_num) exp_twenty_five_ge

theorem largest_far (far : 25 ≤ |reach strengths|) :
    (posterior.precision Link.logistic strengths).largest ≤ 4.9e14 := by
  have entry : ∀ row column, (posterior.precision Link.logistic strengths).entry row column =
      (25e24 * bend (reach strengths) + 1e4) *
          ((Pi.single row 1 : Fin 2 → ℝ) 0 * (Pi.single column 1 : Fin 2 → ℝ) 0) +
        1e13 * ((Pi.single row 1 : Fin 2 → ℝ) 1 * (Pi.single column 1 : Fin 2 → ℝ) 1) := by
    intro row column
    rw [← dot_precision_eq, single_one_dotProduct, mulVec_single_one]
    rfl
  have positive := bend_pos (reach strengths)
  have small := bend_far far
  norm_num at small
  apply Grid.largest_le (by norm_num)
  intro row column
  rw [entry, abs_le]
  fin_cases row
  · fin_cases column
    · norm_num [Pi.single_apply]
      constructor <;> linarith
    · norm_num [Pi.single_apply]
  · fin_cases column
    · norm_num [Pi.single_apply]
    · norm_num [Pi.single_apply]

theorem accepted (far : 25 ≤ |reach strengths|) :
    newtonStep Link.logistic posterior strengths ≠ none ∧
      (posterior.precision Link.logistic strengths).inverse ≠ none := by
  have firm : (2 : ℕ) * (posterior.precision Link.logistic strengths).threshold < (1e4 : ℝ) := by
    have bounded := mul_le_mul_of_nonneg_left (largest_far strengths far) Grid.tolerance_pos.le
    have product : (Elimination.tolerance : ℝ) * 4.9e14 = 490 := by
      change (1e-12 : ℝ) * 4.9e14 = 490
      norm_num
    rw [product] at bounded
    change (2 : ℕ) * (Elimination.tolerance *
      (posterior.precision Link.logistic strengths).largest) < (1e4 : ℝ)
    push_cast
    linarith
  exact ⟨Grid.solve_of_steep two_pos (steep strengths) firm _,
    Grid.inverse_of_steep two_pos (steep strengths) firm⟩

/-! ### Its only stride -/

theorem reach_start : reach (startPosition Link.logistic posterior).strengths = -25 := by
  rw [reach, start_strengths_get, mul_zero, zero_sub]

/-- The first step is far too long for one player, and as long as it should be for the other. -/
theorem step_bounds {step : Vector ℝ 2}
    (found : newtonStep Link.logistic posterior
      (startPosition Link.logistic posterior).strengths = some step) :
    4.6e-3 ≤ step.get 0 ∧ step.get 0 ≤ 7.4e-3 ∧ step.get 1 = 0.01 := by
  have solved := (Grid.solve_unique found step.get).mpr rfl
  have along : ∀ direction : Fin 2 → ℝ,
      (25e24 * bend 25 + 1e4) * (direction 0 * step.get 0) +
          1e13 * (direction 1 * step.get 1) =
        2.5e12 * (Real.sigmoid 25 - Real.sigmoid (-25)) * direction 0 + 1e11 * direction 1 := by
    intro direction
    have product := congrArg (direction ⬝ᵥ ·) solved
    rw [dot_precision_eq, dot_gradient_eq, reach_start, start_strengths_get, start_strengths_get,
      neg_neg, bend_neg] at product
    rw [product]
    ring
  have first := along (Pi.single 0 1)
  have second := along (Pi.single 1 1)
  norm_num [Pi.single_apply] at first second
  have faint : Real.sigmoid (-25) ≤ 1 / 5.2e10 := by
    rw [Real.sigmoid_def, neg_neg, one_div]
    exact inv_anti₀ (by norm_num) (exp_twenty_five_ge.trans (le_add_of_nonneg_left zero_le_one))
  have sure : Real.sigmoid 25 = 1 - Real.sigmoid (-25) := by
    rw [Real.sigmoid_neg]
    ring
  have nonneg := Real.sigmoid_nonneg (-25)
  have bent := bend_far (le_abs_self (25 : ℝ))
  have bentLeast : 1 / 7.3e10 ≤ bend 25 := by
    have power : Real.exp 25 ≤ 7.21e10 := by
      calc
        Real.exp 25 = Real.exp 1 ^ 25 := by
          rw [Real.exp_one_pow]
          norm_num
        _ ≤ 2.7182818286 ^ 25 :=
          pow_le_pow_left₀ (Real.exp_pos 1).le Real.exp_one_lt_d9.le 25
        _ ≤ 7.21e10 := by norm_num
    have back : Real.exp (-25) ≤ 1 := Real.exp_le_one_iff.mpr (by norm_num)
    have positive := Real.exp_pos 25
    have positiveBack := Real.exp_pos (-25)
    rw [bend_eq_cosh, Real.cosh_eq, one_div]
    exact inv_anti₀ (by positivity) (by norm_num at power ⊢; linarith)
  norm_num at faint bent bentLeast
  refine ⟨?_, ?_, by norm_num; linarith⟩
  · nlinarith
  · nlinarith

/-- What is left of the step at the floor leads down for the first player by more than it leads up
for the other. -/
theorem falls_at_floor {step : Vector ℝ 2} (least : 4.6e-3 ≤ step.get 0)
    (other : step.get 1 = 0.01) :
    Falls Link.logistic posterior (startPosition Link.logistic posterior) step
        (0.5 ^ maxHalvings) ∧
      25 ≤ |reach (shift (startPosition Link.logistic posterior).strengths step
        (0.5 ^ maxHalvings))| := by
  have floor : (0.5 : ℝ) ^ maxHalvings = 1 / 134217728 := by norm_num [maxHalvings]
  let reached := shift (startPosition Link.logistic posterior).strengths step (0.5 ^ maxHalvings)
  have first : reached.get 0 = step.get 0 / 134217728 := by
    rw [get_shift, start_strengths_get, floor]
    ring
  have second : reached.get 1 = 0.01 / 134217728 := by
    rw [get_shift, start_strengths_get, floor, other]
    ring
  have far : 146 ≤ reach reached := by
    rw [reach, first]
    norm_num at least ⊢
    linarith
  have loss := (le_abs_self _).trans (abs_le_draw_loss (reach reached))
  have startLoss : drawLoss (-25) ≤ 27 := by
    have bounded := draw_loss_le (-25)
    norm_num at bounded
    linarith [Real.log_two_lt_d9]
  constructor
  · have start : (startPosition Link.logistic posterior).value =
        -drawLoss (-25) / 2 - 5e12 * (0 - 0.01) ^ 2 := by
      change posterior.value Link.logistic (startPosition Link.logistic posterior).strengths = _
      rw [value_eq, reach_start, start_strengths_get, start_strengths_get]
      ring
    change posterior.value Link.logistic reached < _
    rw [start, value_eq, second]
    have square := sq_nonneg (reached.get 0)
    norm_num
    linarith
  · exact (by linarith : (25 : ℝ) ≤ reach reached).trans (le_abs_self _)

theorem search_falls : ∃ strengths covariance,
    search Link.logistic defaultSettings posterior = .ok strengths ∧
    (posterior.precision Link.logistic strengths).inverse = some covariance ∧
    posterior.value Link.logistic strengths <
      posterior.value Link.logistic (Vector.replicate 2 0) := by
  let start := startPosition Link.logistic posterior
  have nonneg : ∀ term ∈ posterior.terms, 0 ≤ term.weight := by
    simp only [posterior, List.mem_cons, List.not_mem_nil, or_false, forall_eq_or_imp, forall_eq]
    norm_num
  have startFar : 25 ≤ |reach start.strengths| := by
    rw [reach_start]
    norm_num
  obtain ⟨step, found⟩ := Option.ne_none_iff_exists'.mp (accepted start.strengths startFar).1
  obtain ⟨least, most, other⟩ := step_bounds found
  obtain ⟨falls, far⟩ := falls_at_floor least other
  let reached := shift start.strengths step (0.5 ^ maxHalvings)
  obtain ⟨covariance, inverted⟩ := Option.ne_none_iff_exists'.mp (accepted reached far).2
  let stride : Stride ℝ 2 :=
    ⟨start, step, 0.5 ^ maxHalvings, position Link.logistic posterior reached⟩
  have taken : stride? Link.logistic posterior start = some stride := by
    change (newtonStep Link.logistic posterior start.strengths).map _ = _
    rw [found, Option.map_some, line_search_at_floor nonneg rfl falls]
  have short : stride.length < (defaultSettings : FitSettings ℝ).tolerance := by
    have floor : (0.5 : ℝ) ^ maxHalvings = 1 / 134217728 := by norm_num [maxHalvings]
    have bounded : stride.length ≤ 9e-11 := by
      apply Stride.length_le (by norm_num)
      intro player
      change |step.get player * 0.5 ^ maxHalvings| ≤ 9e-11
      rw [floor, abs_le]
      fin_cases player
      · change -9e-11 ≤ step.get 0 * (1 / 134217728) ∧ step.get 0 * (1 / 134217728) ≤ 9e-11
        norm_num at least most ⊢
        constructor <;> linarith
      · change -9e-11 ≤ step.get 1 * (1 / 134217728) ∧ step.get 1 * (1 / 134217728) ≤ 9e-11
        rw [other]
        norm_num
    have tolerance : (9e-11 : ℝ) < 1e-10 := by norm_num
    exact bounded.trans_lt tolerance
  refine ⟨reached, covariance, ?_, inverted, falls⟩
  change climb Link.logistic defaultSettings posterior (199 + 1) true start = _
  rw [climb_stride taken, if_pos short]
  rfl

end Overshooting

/-- A fit whose weights are all positive, and that is returned although it is worse than its
start. -/
theorem overshooting_fit_is_returned :
    (∀ term ∈ overshooting, 0 < term.weight) ∧
    ∃ ratings strengths covariance,
      estimate Link.logistic defaultSettings overshooting = .ok ratings ∧
      ratings =
        RatingList.ofStrengths (Posterior.ofTerms overshooting).players strengths covariance ∧
      search Link.logistic defaultSettings (Posterior.ofTerms overshooting) = .ok strengths ∧
      (Posterior.ofTerms overshooting).value Link.logistic strengths <
        (Posterior.ofTerms overshooting).value Link.logistic (Vector.replicate _ 0) := by
  let Returned {size : Nat} (posterior : Posterior ℝ size) : Prop := ∃ strengths covariance,
    search Link.logistic defaultSettings posterior = .ok strengths ∧
    (posterior.precision Link.logistic strengths).inverse = some covariance ∧
    posterior.value Link.logistic strengths <
      posterior.value Link.logistic (Vector.replicate size 0)
  have returned : Returned (Posterior.ofTerms overshooting) := by
    apply Posterior.of_names Overshooting.names @Returned
    rw [Overshooting.placed]
    exact Overshooting.search_falls
  obtain ⟨strengths, covariance, ended, inverted, falls⟩ := returned
  have somebody : (Posterior.playersOf overshooting).isEmpty = false := by
    rw [Overshooting.names]
    rfl
  have estimated := estimate_of_search somebody ended inverted
  exact ⟨Overshooting.weighted, _, strengths, covariance, estimated, rfl, ended, falls⟩

end Fit

end KifuRatings
