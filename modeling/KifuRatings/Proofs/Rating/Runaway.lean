import KifuRatings.Proofs.Rating.Gaps

/-!
# Ratings that run away

A search says that a rating is unbounded if the first system is accepted and a later one is
refused. It names the player whose strength is furthest from the mean there. In a branching table
every search comes to such a place if a player never won against another but lost, and there are
enough steps: these two move apart by one unit with every step, until their games bend next to
nothing.
-/

namespace KifuRatings

open Logistic Matrix

namespace Fit

variable {size : Nat} {link : Link ℝ} {settings : FitSettings ℝ} {posterior : Posterior ℝ size}

def Furthest (strengths : Vector ℝ size) (player : Fin size) : Prop :=
  ∀ other, |strengths.get other - (∑ player, strengths.get player) / size| ≤
    |strengths.get player - (∑ player, strengths.get player) / size|

theorem outlier_furthest (somebody : 0 < size) (strengths : Vector ℝ size) :
    ∃ player, outlier posterior strengths = posterior.players.get player ∧
      Furthest strengths player := by
  let mean : ℝ := (∑ player, strengths.get player) / size
  let candidates : List (String × ℝ) := (List.finRange size).map fun player =>
    (posterior.players.get player, strengths.get player)
  have picked : outlier posterior strengths =
      (Scalar.lastGreatest (fun candidate : String × ℝ => |candidate.2 - mean|) ("", 0)
        candidates).1 := by
    have sum : Scalar.sum strengths.toList = ∑ player, strengths.get player := by
      rw [Scalar.sum_exact, to_list_eq_map, ← Fin.sum_univ_def]
    have zipped : posterior.players.toList.zip strengths.toList = candidates := by
      rw [to_list_eq_map, to_list_eq_map strengths, List.zip_map']
    unfold outlier
    rw [sum, zipped]
    rfl
  have listed : ∀ player, (posterior.players.get player, strengths.get player) ∈ candidates :=
    fun player => List.mem_map.mpr ⟨player, List.mem_finRange player, rfl⟩
  have found := Scalar.last_greatest_mem (fun candidate : String × ℝ => |candidate.2 - mean|)
    ("", 0) (List.ne_nil_of_mem (listed ⟨0, somebody⟩))
  obtain ⟨player, _, same⟩ := List.mem_map.mp found
  refine ⟨player, ?_, ?_⟩
  · rw [picked, ← same]
  · intro other
    have greatest := Scalar.key_le_last_greatest
      (fun candidate : String × ℝ => |candidate.2 - mean|) ("", 0) (listed other)
    rwa [← same] at greatest

theorem climb_unbounded {remaining : Nat} {isFirst : Bool} {start : Position ℝ size} {name : String}
    (ended : climb link settings posterior remaining isFirst start =
      .error (.unboundedRating name)) :
    ∃ last, Visits link posterior start last ∧ newtonStep link posterior last.strengths = none ∧
      name = outlier posterior last.strengths ∧
      (isFirst = true → newtonStep link posterior start.strengths ≠ none) := by
  induction remaining generalizing isFirst start with
  | zero => cases ended
  | succ remaining induction =>
      rw [climb_succ] at ended
      cases solved : newtonStep link posterior start.strengths with
      | none =>
          rw [solved] at ended
          cases isFirst with
          | true => cases ended
          | false =>
              cases ended
              exact ⟨start, .refl, solved, rfl, fun first => Bool.noConfusion first⟩
      | some step =>
          have climbs : Climbs link posterior start
            (lineSearch link posterior start step maxHalvings 1).2 := ⟨step, solved, rfl⟩
          simp only [solved] at ended
          split at ended
          · cases ended
          · obtain ⟨last, visits, refused, named, _⟩ := induction ended
            exact ⟨last, visits.head climbs, refused, named, fun _ => Option.some_ne_none step⟩

theorem ratings_unbounded {name : String}
    (ended : ratingsOf link settings posterior = .error (.unboundedRating name)) :
    ∃ last, Visits link posterior (startPosition link posterior) last ∧
      newtonStep link posterior last.strengths = none ∧
      name = outlier posterior last.strengths ∧
      newtonStep link posterior (startPosition link posterior).strengths ≠ none := by
  unfold ratingsOf at ended
  cases found : search link settings posterior with
  | error cause =>
      rw [found] at ended
      cases ended
      obtain ⟨last, visits, refused, named, accepted⟩ := climb_unbounded found
      exact ⟨last, visits, refused, named, accepted rfl⟩
  | ok strengths =>
      rw [found] at ended
      change ratingsAt link posterior strengths = _ at ended
      unfold ratingsAt at ended
      split at ended
      · cases ended
      · cases ended

end Fit

namespace ScoreMatrix

variable {table : Crosstable}

/-! ## Bridges that give way -/

/-- So few games at a bridge are taken for zero beside the weight of the mean. -/
def NegligibleBridge (table : Crosstable) (games : ℝ) : Prop :=
  ((2 ^ ((ofTable table).size - 1) * (ofTable table).size ^ 3 : ℕ) : ℝ) * games ≤ 1e-8

/-- A group that is moved against the others sees the games at its bridge only. -/
theorem flat_across {group : Finset (Fin (ofTable table).size)}
    {inner outer : Fin (ofTable table).size} (bridge : Bridge table group inner outer) (prior : ℝ)
    (strengths : Vector ℝ (ofTable table).size) :
    (((ofTable table).posterior prior 0).precision Link.logistic strengths).Flat
      ((ofTable table).size * (((ofTable table).won inner outer + (ofTable table).won outer inner) *
        bend (strengths.get inner - strengths.get outer))) (parting group) := by
  intro row
  have held := held_nonneg strengths inner outer
  have share := dot_precision_across bridge prior strengths (Pi.single row 1)
  rw [single_one_dotProduct] at share
  rw [share, abs_mul, abs_mul, Nat.abs_cast, abs_of_nonneg held]
  exact mul_le_mul_of_nonneg_left
    (mul_le_of_le_one_right held (abs_one_sub_one_le row inner outer)) (Nat.cast_nonneg _)

theorem refused_across {group : Finset (Fin (ofTable table).size)}
    {inner outer : Fin (ofTable table).size} (bridge : Bridge table group inner outer) (prior : ℝ)
    {strengths : Vector ℝ (ofTable table).size}
    (negligible : NegligibleBridge table
      (((ofTable table).won inner outer + (ofTable table).won outer inner) *
        bend (strengths.get inner - strengths.get outer))) :
    Fit.newtonStep Link.logistic ((ofTable table).posterior prior 0) strengths = none := by
  have somebody : 0 < (ofTable table).size := inner.pos
  let last : Fin (ofTable table).size := ⟨(ofTable table).size - 1, Nat.sub_one_lt somebody.ne'⟩
  have isLast : last.val + 1 = (ofTable table).size := Nat.sub_add_cancel somebody
  have long := (abs_parting ⟨inner, bridge.inside⟩
    ⟨outer, Finset.mem_compl.mpr bridge.outside⟩ last).1
  apply Grid.solve_refused isLast long (flat_across bridge prior strengths)
  have small : (2 : ℝ) ^ last.val * ((ofTable table).size *
      (((ofTable table).won inner outer + (ofTable table).won outer inner) *
        bend (strengths.get inner - strengths.get outer))) ≤
          Elimination.tolerance * (10000 / (ofTable table).size ^ 2) := by
    have tolerance : (Elimination.tolerance : ℝ) = 1e-12 := rfl
    have sizePos : (0 : ℝ) < (ofTable table).size := Nat.cast_pos.mpr somebody
    rw [tolerance, ← mul_div_assoc, le_div_iff₀ (by positivity)]
    calc
      _ = ((2 ^ ((ofTable table).size - 1) * (ofTable table).size ^ 3 : ℕ) : ℝ) *
          (((ofTable table).won inner outer + (ofTable table).won outer inner) *
            bend (strengths.get inner - strengths.get outer)) := by
        push_cast
        ring
      _ ≤ 1e-8 := negligible
      _ = 1e-12 * 10000 := by norm_num
  exact small.trans (mul_le_mul_of_nonneg_left
    (precision_largest_ge table prior le_rfl strengths somebody) Grid.tolerance_pos.le)

/-! ## Climbs that run away -/

section Unbeaten

variable (branching : Branching table) {prior : ℝ} {winner loser : Fin (ofTable table).size}
  (won : 0 < (ofTable table).won winner loser) (unbeaten : (ofTable table).won loser winner = 0)

include branching won unbeaten

/-- With every stride a player who never lost to another gets further ahead. -/
theorem stride_apart {start : Fit.Position ℝ (ofTable table).size}
    (looked : start =
      Fit.position Link.logistic ((ofTable table).posterior prior 0) start.strengths)
    (settling : Settling table start.strengths) {step : Vector ℝ (ofTable table).size}
    (found : Fit.newtonStep Link.logistic ((ofTable table).posterior prior 0) start.strengths =
      some step) :
    ∃ stride, Fit.stride? Link.logistic ((ofTable table).posterior prior 0) start = some stride ∧
      Settling table stride.reached.strengths ∧
      start.strengths.get winner - start.strengths.get loser + 1 ≤
        stride.reached.strengths.get winner - stride.reached.strengths.get loser ∧
      1 / 2 ≤ stride.length := by
  have further : 1 ≤ step.get winner - step.get loser :=
    one_le_change won (settling winner loser won (unbeaten ▸ won.le))
      (newton_of_branching branching found won) unbeaten
  refine ⟨_, stride_of_branching branching looked settling found,
    settling_of_step branching settling found, ?_, ?_⟩
  · change _ ≤ (Fit.shift start.strengths step 1).get winner
      - (Fit.shift start.strengths step 1).get loser
    rw [shift_difference]
    linarith
  · let stride : Fit.Stride ℝ (ofTable table).size := ⟨start, step, 1, Fit.position Link.logistic
      ((ofTable table).posterior prior 0) (Fit.shift start.strengths step 1)⟩
    have ahead : |step.get winner * 1| ≤ stride.length := stride.le_length winner
    have behind : |step.get loser * 1| ≤ stride.length := stride.le_length loser
    rw [mul_one] at ahead behind
    change 1 / 2 ≤ stride.length
    linarith [le_abs_self (step.get winner), neg_abs_le (step.get loser)]

theorem refused_far_apart {far : ℝ}
    (negligible : NegligibleBridge table ((ofTable table).won winner loser * Real.exp (-far)))
    {strengths : Vector ℝ (ofTable table).size}
    (apart : far ≤ strengths.get winner - strengths.get loser) :
    Fit.newtonStep Link.logistic ((ofTable table).posterior prior 0) strengths = none := by
  obtain ⟨group, bridge⟩ := branching winner loser
    (add_pos_of_pos_of_nonneg won (won_nonneg _ _ _))
  apply refused_across bridge
  apply le_trans _ negligible
  rw [unbeaten, add_zero]
  have bent : bend (strengths.get winner - strengths.get loser) ≤ Real.exp (-far) :=
    (bend_le_exp _).trans
      (Real.exp_le_exp.mpr (neg_le_neg (apart.trans (le_abs_self _))))
  gcongr

theorem climb_runs_away {settings : FitSettings ℝ} (tolerant : settings.tolerance ≤ 1 / 2) {far : ℝ}
    (negligible : NegligibleBridge table ((ofTable table).won winner loser * Real.exp (-far)))
    {remaining : Nat} {start : Fit.Position ℝ (ofTable table).size}
    (looked : start =
      Fit.position Link.logistic ((ofTable table).posterior prior 0) start.strengths)
    (settling : Settling table start.strengths)
    (near : far ≤ start.strengths.get winner - start.strengths.get loser + remaining) :
    ∃ last, Fit.Visits Link.logistic ((ofTable table).posterior prior 0) start last ∧
      Fit.climb Link.logistic settings ((ofTable table).posterior prior 0) (remaining + 1) false
        start = .error (.unboundedRating
          (Fit.outlier ((ofTable table).posterior prior 0) last.strengths)) := by
  -- On the steps that are left: each takes the two one unit further apart.
  induction remaining generalizing start with
  | zero =>
      rw [Nat.cast_zero, add_zero] at near
      have refused := @refused_far_apart _ branching prior _ _ won unbeaten _ negligible
        start.strengths near
      refine ⟨start, .refl, ?_⟩
      rw [Fit.climb_succ, refused]
      rfl
  | succ remaining induction =>
      cases found : Fit.newtonStep Link.logistic ((ofTable table).posterior prior 0)
          start.strengths with
      | none =>
          refine ⟨start, .refl, ?_⟩
          rw [Fit.climb_succ, found]
          rfl
      | some step =>
          obtain ⟨stride, taken, reached, apart, long⟩ :=
            stride_apart branching won unbeaten looked settling found
          have nearer : far ≤ stride.reached.strengths.get winner
              - stride.reached.strengths.get loser + remaining := by
            push_cast at near
            linarith
          obtain ⟨last, visits, ended⟩ :=
            induction (Fit.reached_is_position taken) reached nearer
          refine ⟨last, visits.head (Fit.climbs_of_stride taken), ?_⟩
          rw [Fit.climb_stride taken, if_neg (tolerant.trans long).not_gt]
          exact ended

theorem ratings_run_away {settings : FitSettings ℝ} (tolerant : settings.tolerance ≤ 1 / 2)
    (accepted : Fit.newtonStep Link.logistic ((ofTable table).posterior prior 0)
      (Fit.startPosition Link.logistic ((ofTable table).posterior prior 0)).strengths ≠ none)
    {far : ℕ} (negligible : NegligibleBridge table ((ofTable table).won winner loser * Real.exp (-far)))
    (enough : far + 2 ≤ settings.maxIterations) :
    ∃ previous last, Fit.Visits Link.logistic ((ofTable table).posterior prior 0)
        (Fit.startPosition Link.logistic ((ofTable table).posterior prior 0)) previous ∧
      Fit.Climbs Link.logistic ((ofTable table).posterior prior 0) previous last ∧
      Fit.ratingsOf Link.logistic settings ((ofTable table).posterior prior 0) =
        .error (.unboundedRating
          (Fit.outlier ((ofTable table).posterior prior 0) last.strengths)) := by
  let start := Fit.startPosition Link.logistic ((ofTable table).posterior prior 0)
  obtain ⟨remaining, count⟩ := Nat.exists_eq_add_of_le' ((Nat.le_add_left 2 far).trans enough)
  have looked : start =
      Fit.position Link.logistic ((ofTable table).posterior prior 0) start.strengths := rfl
  obtain ⟨step, found⟩ := Option.ne_none_iff_exists'.mp accepted
  obtain ⟨stride, taken, reached, apart, long⟩ :=
    stride_apart branching won unbeaten looked (settling_at_start prior) found
  have near : far ≤ stride.reached.strengths.get winner
      - stride.reached.strengths.get loser + remaining := by
    have steps : (far : ℝ) ≤ remaining := by
      exact_mod_cast (by omega : far ≤ remaining)
    rw [Fit.start_strengths_get, Fit.start_strengths_get, sub_self] at apart
    linarith
  obtain ⟨last, visits, ended⟩ := climb_runs_away branching won unbeaten tolerant negligible
    (Fit.reached_is_position taken) reached near
  obtain ⟨previous, before, climbs⟩ :=
    Relation.TransGen.tail'_iff.mp (.head' (Fit.climbs_of_stride taken) visits)
  refine ⟨previous, last, before, climbs, ?_⟩
  have search : Fit.search Link.logistic settings ((ofTable table).posterior prior 0) =
      .error (.unboundedRating
        (Fit.outlier ((ofTable table).posterior prior 0) last.strengths)) := by
    unfold Fit.search
    rw [count]
    change Fit.climb Link.logistic settings _ (remaining + 1 + 1) true start = _
    rw [Fit.climb_stride taken, if_neg (tolerant.trans long).not_gt]
    exact ended
  rw [Fit.ratingsOf, search]
  rfl

end Unbeaten

end ScoreMatrix

end KifuRatings
