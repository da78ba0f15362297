import KifuRatings.Proofs.Rating.Climb
import KifuRatings.Proofs.Rating.Curves

/-!
# Terms as a weighted sum

With exact arithmetic the value, the slope and the curvature of a term are its weight times what
its shape, its offset and the coefficients of the players make of the strengths. A fit adds these
up, so it cannot tell in which order they stand, whether a weight is given at once or in parts, and
whether a player is mentioned once or several times in a combination.
-/

namespace KifuRatings

inductive Recast : List (Term String ℝ) → List (Term String ℝ) → Prop where
  | reorder {terms others : List (Term String ℝ)} (same : terms.Perm others) : Recast terms others
  | reorderCombo (before after : List (Term String ℝ)) (term : Term String ℝ)
      {combo : List (String × ℝ)} (same : term.combo.Perm combo) :
      Recast (before ++ term :: after) (before ++ { term with combo := combo } :: after)
  | splitWeight (before after : List (Term String ℝ)) (term : Term String ℝ) {first second : ℝ}
      (total : term.weight = first + second) :
      Recast (before ++ term :: after)
        (before ++ { term with weight := first } :: { term with weight := second } :: after)
  /-- With `reorderCombo` the two mentions need not stand side by side. -/
  | splitMention (before after : List (Term String ℝ)) (term : Term String ℝ)
      {front back : List (String × ℝ)} {player : String} {first second : ℝ}
      (mentioned : term.combo = front ++ (player, first + second) :: back) :
      Recast (before ++ term :: after)
        (before ++ { term with combo := front ++ (player, first) :: (player, second) :: back }
          :: after)

namespace Posterior

variable {size : Nat} (players : Vector String size)

theorem coefficient_of_place (term : Term String ℝ) (player : Fin size) :
    (place players term).coefficient player =
      (term.combo.map fun (name, coefficient) =>
        if players.finIdxOf? name = some player then coefficient else 0).sum := by
  unfold Term.coefficient place
  dsimp only
  induction term.combo with
  | nil => rfl
  | cons mention combo induction =>
      obtain ⟨name, coefficient⟩ := mention
      rw [List.filterMap_cons, List.map_cons, List.sum_cons, ← induction]
      cases players.finIdxOf? name with
      | none => simp
      | some index => simp

theorem coefficient_of_reordered {term : Term String ℝ} {combo : List (String × ℝ)}
    (same : term.combo.Perm combo) :
    (place players { term with combo := combo }).coefficient =
      (place players term).coefficient := by
  funext player
  rw [coefficient_of_place, coefficient_of_place]
  exact (same.map _).sum_eq.symm

theorem coefficient_of_split {term : Term String ℝ} {front back : List (String × ℝ)}
    {name : String} {first second : ℝ}
    (mentioned : term.combo = front ++ (name, first + second) :: back) :
    (place players { term with
        combo := front ++ (name, first) :: (name, second) :: back }).coefficient =
      (place players term).coefficient := by
  funext player
  rw [coefficient_of_place, coefficient_of_place, mentioned]
  simp only [List.map_append, List.map_cons, List.sum_append, List.sum_cons]
  split
  · rw [add_assoc]
  · simp only [zero_add]

/-- A sum over terms that takes of each term its weight, and nothing of its combination but what
the players are multiplied by. -/
theorem weighted_sum_of_recast {terms others : List (Term String ℝ)} (recast : Recast terms others)
    (count : Shape → ℝ → (Fin size → ℝ) → ℝ) :
    ((terms.map (place players)).map fun term =>
        term.weight * count term.shape term.offset term.coefficient).sum =
      ((others.map (place players)).map fun term =>
        term.weight * count term.shape term.offset term.coefficient).sum := by
  cases recast with
  | reorder same => exact ((same.map _).map _).sum_eq
  | reorderCombo before after term same =>
      simp only [List.map_append, List.map_cons, List.sum_append, List.sum_cons,
        coefficient_of_reordered players same]
      rfl
  | @splitWeight before after term first second total =>
      have unchanged : ∀ weight, (place players { term with weight := weight }).coefficient =
          (place players term).coefficient := fun _ => rfl
      have whole : (place players term).weight = first + second := total
      simp only [List.map_append, List.map_cons, List.sum_append, List.sum_cons, unchanged, whole,
        add_mul, add_assoc]
      rfl
  | splitMention before after term mentioned =>
      simp only [List.map_append, List.map_cons, List.sum_append, List.sum_cons,
        coefficient_of_split players mentioned]
      rfl

theorem names_of_recast {terms others : List (Term String ℝ)} (recast : Recast terms others) :
    playersOf terms = playersOf others := by
  apply sorted_names_congr
  intro name
  cases recast with
  | reorder same => exact (same.flatMap_right _).mem_iff
  | reorderCombo before after term same =>
      simp only [List.flatMap_append, List.flatMap_cons, List.mem_append,
        (same.map Prod.fst).mem_iff]
  | splitWeight before after term total => simp
  | splitMention before after term mentioned => simp [mentioned]

/-! ## Posteriors that the fit cannot tell apart -/

/-- Two posteriors of the same players that agree wherever the fit looks at them. -/
structure Alike (link : Link ℝ) (left right : Posterior ℝ size) : Prop where
  players : left.players = right.players
  value : ∀ strengths, left.value link strengths = right.value link strengths
  gradient : ∀ strengths, left.gradient link strengths = right.gradient link strengths
  precision : ∀ strengths, left.precision link strengths = right.precision link strengths

theorem alike_of_recast (link : Link ℝ) {terms others : List (Term String ℝ)}
    (recast : Recast terms others) :
    Alike link ⟨players, terms.map (place players)⟩ ⟨players, others.map (place players)⟩ where
  players := rfl
  value strengths := by
    have counted := weighted_sum_of_recast players recast fun shape offset coefficient =>
      shape.value link (∑ player, coefficient player * strengths.get player + offset)
    simp only [value_eq, combination_eq, Term.along, Term.value_scales]
    exact counted
  gradient strengths := by
    apply vector_ext
    intro player
    have counted := weighted_sum_of_recast players recast fun shape offset coefficient =>
      shape.slope link (∑ player, coefficient player * strengths.get player + offset) *
        coefficient player
    simp only [gradient_get, combination_eq, Term.along, Term.slope_scales, mul_assoc]
    exact counted
  precision strengths := by
    apply vector_ext
    intro row
    apply vector_ext
    intro column
    change Grid.entry _ row column = Grid.entry _ row column
    have counted := weighted_sum_of_recast players recast fun shape offset coefficient =>
      -(shape.curvature link (∑ player, coefficient player * strengths.get player + offset) *
        (coefficient row * coefficient column))
    simp only [mul_neg] at counted
    simp only [precision_entry, combination_eq, Term.along, Term.curvature_scales, neg_mul,
      mul_assoc]
    exact counted

end Posterior

/-! ## Fits of recast terms -/

namespace Fit

open Posterior

variable {size : Nat} {link : Link ℝ} {left right : Posterior ℝ size}

theorem position_of_alike (alike : Alike link left right) :
    position link left = position link right := by
  funext strengths
  unfold position
  rw [alike.value]

theorem line_search_of_alike (alike : Alike link left right) (start : Position ℝ size)
    (step : Vector ℝ size) (halvings : Nat) (scale : ℝ) :
    lineSearch link left start step halvings scale =
      lineSearch link right start step halvings scale := by
  induction halvings generalizing scale with
  | zero =>
      unfold lineSearch
      rw [position_of_alike alike]
  | succ halvings induction =>
      unfold lineSearch
      simp only [position_of_alike alike, induction]

theorem newton_step_of_alike (alike : Alike link left right) (strengths : Vector ℝ size) :
    newtonStep link left strengths = newtonStep link right strengths := by
  unfold newtonStep
  rw [alike.precision, alike.gradient]

theorem climb_of_alike (alike : Alike link left right) (settings : FitSettings ℝ)
    (remaining : Nat) (isFirst : Bool) (start : Position ℝ size) :
    climb link settings left remaining isFirst start =
      climb link settings right remaining isFirst start := by
  have sameOutlier : outlier left = outlier right := by
    funext strengths
    unfold outlier
    rw [alike.players]
  induction remaining generalizing isFirst start with
  | zero => rfl
  | succ remaining induction =>
      simp only [climb_succ, newton_step_of_alike alike, line_search_of_alike alike, sameOutlier,
        induction]

theorem ratings_of_alike (alike : Alike link left right) (settings : FitSettings ℝ) :
    ratingsOf link settings left = ratingsOf link settings right := by
  have sameSearch : search link settings left = search link settings right := by
    unfold search
    rw [position_of_alike alike, climb_of_alike alike]
  have sameRatings : ratingsAt link left = ratingsAt link right := by
    funext strengths
    unfold ratingsAt
    rw [alike.precision, alike.players]
  rw [ratingsOf, sameSearch, sameRatings, ratingsOf]

theorem estimate_of_recast (link : Link ℝ) (settings : FitSettings ℝ)
    {terms others : List (Term String ℝ)} (recast : Recast terms others) :
    estimate link settings terms = estimate link settings others := by
  rw [estimate_eq link settings (names_of_recast recast), estimate_eq link settings rfl,
    ratings_of_alike (alike_of_recast _ link recast)]

/-- A fit depends on its terms only as a weighted sum: the same ratings or the same error come of
all ways to write it. -/
theorem recast_terms_fit_alike (link : Link ℝ) (settings : FitSettings ℝ)
    {terms others : List (Term String ℝ)} (recast : Relation.EqvGen Recast terms others) :
    estimate link settings terms = estimate link settings others := by
  induction recast with
  | rel _ _ once => exact estimate_of_recast link settings once
  | refl _ => rfl
  | symm _ _ _ induction => exact induction.symm
  | trans _ _ _ _ _ first second => exact first.trans second

noncomputable def threeWins : List (Term String ℝ) :=
  [⟨[("a", 1), ("b", -1)], 0, 3, .sigmoid⟩, ⟨[("a", 0.5), ("b", 0.5)], 0, 1e4, .gaussian⟩]

/-- The same with the prior first, and with half a win told apart in which the winner is
mentioned twice. -/
noncomputable def toldApart : List (Term String ℝ) :=
  [⟨[("a", 0.5), ("b", 0.5)], 0, 1e4, .gaussian⟩,
    ⟨[("b", -1), ("a", 1.5), ("a", -0.5)], 0, 0.5, .sigmoid⟩,
    ⟨[("b", -1), ("a", 1)], 0, 2.5, .sigmoid⟩]

theorem three_wins_recast : Relation.EqvGen Recast threeWins toldApart := by
  let center : Term String ℝ := ⟨[("a", 0.5), ("b", 0.5)], 0, 1e4, .gaussian⟩
  let wins (weight : ℝ) : Term String ℝ := ⟨[("b", -1), ("a", 1)], 0, weight, .sigmoid⟩
  have turned : Recast threeWins [wins 3, center] :=
    .reorderCombo [] [center] ⟨[("a", 1), ("b", -1)], 0, 3, .sigmoid⟩ (.swap _ _ _)
  have swapped : Recast [wins 3, center] [center, wins 3] := .reorder (.swap _ _ _)
  have split : Recast [center, wins 3] [center, wins 0.5, wins 2.5] :=
    .splitWeight [center] [] (wins 3) (by norm_num [wins])
  have apart : Recast [center, wins 0.5, wins 2.5] toldApart :=
    @Recast.splitMention [center] [wins 2.5] (wins 0.5) [("b", -1)] [] "a" 1.5 (-0.5)
      (by norm_num [wins])
  exact (((Relation.EqvGen.rel _ _ turned).trans _ _ _ (.rel _ _ swapped)).trans _ _ _
    (.rel _ _ split)).trans _ _ _ (.rel _ _ apart)

theorem three_wins_fit_alike : Relation.EqvGen Recast threeWins toldApart ∧
    estimate Link.logistic defaultSettings threeWins =
      estimate Link.logistic defaultSettings toldApart :=
  ⟨three_wins_recast, recast_terms_fit_alike Link.logistic defaultSettings three_wins_recast⟩

end Fit

end KifuRatings
