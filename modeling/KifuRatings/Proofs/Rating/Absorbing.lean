import KifuRatings.Proofs.Rating.Derivatives
import KifuRatings.Proofs.Rating.Names
import KifuRatings.Proofs.Rating.Strides

/-!
# Values that a fit cannot get rid of

In doubles a value that is not a finite number makes another such value of every sum, difference
and product that it enters, and of every quotient that it is divided in. Once a value of this kind
stands for the prior, for the weight of the draws or for a strength, the term for the mean or the
draws hand it on to the slope of every player, and elimination hands it on from there to every
component of the Newton step.
-/

namespace KifuRatings

variable {α : Type} [Scalar α]

/-- What is computed from values of this kind is of this kind again. -/
structure Absorbing (lost : α → Prop) : Prop where
  add_left (left right : α) : lost left → lost (left + right)
  add_right (left right : α) : lost right → lost (left + right)
  sub (left right : α) : lost left → lost (left - right)
  mul_left (left right : α) : lost left → lost (left * right)
  mul_right (left right : α) : lost right → lost (left * right)
  div (left right : α) : lost left → lost (left / right)
  neg (value : α) : lost value → lost (-value)

namespace Absorbing

variable {lost : α → Prop} (absorbing : Absorbing lost)

include absorbing

theorem foldl {start : α} {values : List α} (gone : lost start ∨ ∃ value ∈ values, lost value) :
    lost (values.foldl (· + ·) start) := by
  induction values generalizing start with
  | nil => exact gone.resolve_right (by simp)
  | cons value values induction =>
      apply induction
      rcases gone with atStart | ⟨other, member, isLost⟩
      · exact .inl (absorbing.add_left _ _ atStart)
      · rcases List.mem_cons.mp member with rfl | later
        · exact .inl (absorbing.add_right _ _ isLost)
        · exact .inr ⟨other, later, isLost⟩

theorem sum {values : List α} {value : α} (member : value ∈ values) (gone : lost value) :
    lost (Scalar.sum values) :=
  absorbing.foldl (.inr ⟨value, member, gone⟩)

/-! ## Elimination -/

section Systems

open Elimination

variable {unknowns sides size : Nat}

theorem constants_reduce (pivot : Equation α (unknowns + 1) sides)
    {equation : Equation α (unknowns + 1) sides}
    (gone : ∀ side, lost (equation.constants.get side)) (side : Fin sides) :
    lost ((pivot.reduce equation).constants.get side) := by
  unfold Equation.reduce
  dsimp only
  split
  · exact gone side
  · rw [get_zip_with]
    exact absorbing.sub _ _ (gone side)

theorem solve_lead {pivot : Equation α (unknowns + 1) sides}
    (gone : ∀ side, lost (pivot.constants.get side)) (others : Vector (Vector α sides) unknowns)
    (side : Fin sides) : lost ((pivot.solveLead others).get side) := by
  unfold Equation.solveLead
  rw [Vector.get_ofFn]
  exact absorbing.div _ _ (absorbing.sub _ _ (gone side))

/-- Elimination makes a lost value of every unknown if all constants are lost. -/
theorem solve_above {least : α} {system : Vector (Equation α unknowns sides) unknowns}
    (gone : ∀ row side, lost ((system.get row).constants.get side))
    {solution : Vector (Vector α sides) unknowns} (solved : solveAbove least system = some solution)
    (unknown : Fin unknowns) (side : Fin sides) : lost ((solution.get unknown).get side) := by
  induction unknowns with
  | zero => exact unknown.elim0
  | succ unknowns induction =>
      rw [solveAbove] at solved
      dsimp only at solved
      split at solved
      · cases solved
      · obtain ⟨rest, solvedRest, rfl⟩ := Option.map_eq_some_iff.mp solved
        rw [prepend, Vector.get_ofFn]
        cases unknown using Fin.cases with
        | zero => exact absorbing.solve_lead (gone _) rest side
        | succ unknown =>
            refine induction (fun row side => ?_) solvedRest unknown
            rw [Vector.get_map]
            apply absorbing.constants_reduce
            intro side
            rw [get_tail_swap]
            exact gone _ side

theorem solve {matrix : Grid α size} {constants solution : Vector α size}
    (gone : ∀ row, lost (constants.get row)) (solved : matrix.solve constants = some solution)
    (unknown : Fin size) : lost (solution.get unknown) := by
  obtain ⟨columns, solvedColumns, rfl⟩ := Option.map_eq_some_iff.mp solved
  unfold solveSides at solvedColumns
  dsimp only at solvedColumns
  split at solvedColumns
  · cases solvedColumns
  · rw [Vector.get_map]
    refine absorbing.solve_above (fun row side => ?_) solvedColumns unknown 0
    rw [get_zip_with, Subsingleton.elim side 0]
    exact gone row

end Systems

/-! ## Slopes -/

section Slopes

variable {size : Nat} {link : Link α}

theorem accumulate {player : Fin size} {start : Vector α size} {shares : List (Fin size × α)}
    (gone : lost (start.get player) ∨ ∃ share, (player, share) ∈ shares ∧ lost share) :
    lost ((Posterior.accumulate start shares).get player) := by
  unfold Posterior.accumulate
  induction shares generalizing start with
  | nil => exact gone.resolve_right (by simp)
  | cons first shares induction =>
      obtain ⟨changed, added⟩ := first
      apply induction
      rw [get_set]
      rcases gone with before | ⟨share, member, isLost⟩
      · left
        split
        · rename_i same
          exact absorbing.add_left _ _ (same ▸ before)
        · exact before
      · rcases List.mem_cons.mp member with same | later
        · obtain ⟨rfl, rfl⟩ := Prod.mk.inj same
          rw [if_pos rfl]
          exact .inl (absorbing.add_right _ _ isLost)
        · exact .inr ⟨share, later, isLost⟩

/-- A slope is handed on to everybody whom its term mentions. -/
theorem gradient {posterior : Posterior α size} {strengths : Vector α size}
    {term : Term (Fin size) α} (member : term ∈ posterior.terms) {player : Fin size}
    {coefficient : α} (mentioned : (player, coefficient) ∈ term.combo)
    (gone : lost (term.slope link (Posterior.combination strengths term))) :
    lost ((posterior.gradient link strengths).get player) := by
  apply absorbing.accumulate
  refine .inr ⟨term.slope link (Posterior.combination strengths term) * coefficient, ?_,
    absorbing.mul_left _ _ gone⟩
  rw [List.mem_flatMap]
  exact ⟨term, member, List.mem_map.mpr ⟨_, mentioned, rfl⟩⟩

variable {term : Term (Fin size) α}

theorem combination_of_offset (strengths : Vector α size) (gone : lost term.offset) :
    lost (Posterior.combination strengths term) :=
  absorbing.add_right _ _ gone

theorem combination_of_strength {strengths : Vector α size} {player : Fin size} {coefficient : α}
    (mentioned : (player, coefficient) ∈ term.combo) (gone : lost (strengths.get player)) :
    lost (Posterior.combination strengths term) :=
  absorbing.add_left _ _
    (absorbing.sum (List.mem_map.mpr ⟨_, mentioned, rfl⟩) (absorbing.mul_right _ _ gone))

theorem slope_of_combination {x : α} (gaussian : term.shape = .gaussian) (gone : lost x) :
    lost (term.slope link x) := by
  unfold Term.slope
  rw [gaussian]
  exact absorbing.mul_right _ _ gone

theorem slope_of_weight (x : α) (gone : lost term.weight) : lost (term.slope link x) := by
  unfold Term.slope
  split
  · exact absorbing.mul_left _ _ gone
  · exact absorbing.mul_left _ _ (absorbing.neg _ gone)

end Slopes

end Absorbing

/-! ## The search for the ratings of a table -/

namespace Posterior

omit [Scalar α]

theorem name_mem (terms : List (Term String α)) (player : Fin (playersOf terms).length) :
    (ofTerms terms).players.get player ∈ playersOf terms :=
  List.getElem_mem player.isLt

theorem index_of_name (terms : List (Term String α)) (player : Fin (playersOf terms).length) :
    (ofTerms terms).players.finIdxOf? ((ofTerms terms).players.get player) = some player := by
  rw [Vector.finIdxOf?_eq_some_iff]
  refine ⟨rfl, fun other before same => ?_⟩
  have increasing := List.pairwise_iff_getElem.mp
    (pairwise_sorted_names (terms.flatMap fun term => term.combo.map (·.1)))
  have below : compare ((ofTerms terms).players.get other) ((ofTerms terms).players.get player) =
      .lt := increasing other player other.isLt player.isLt before
  rw [show (ofTerms terms).players.get other = (ofTerms terms).players.get player from same,
    Std.compare_self] at below
  cases below

theorem mentioned_of_named {terms : List (Term String α)} {term : Term String α}
    {player : Fin (playersOf terms).length} {coefficient : α}
    (named : ((ofTerms terms).players.get player, coefficient) ∈ term.combo) :
    (player, coefficient) ∈ (place (ofTerms terms).players term).combo := by
  apply List.mem_filterMap.mpr
  refine ⟨_, named, ?_⟩
  change ((ofTerms terms).players.finIdxOf? _).map _ = _
  rw [index_of_name]
  rfl

end Posterior

namespace ScoreMatrix

variable (table : Crosstable) (prior draws : α)

def ratingPosterior :
    Posterior α (Posterior.playersOf ((ofTable table).terms prior draws)).length :=
  Posterior.ofTerms ((ofTable table).terms prior draws)

variable {table prior draws}

theorem name_listed (player : Fin (Posterior.playersOf ((ofTable table).terms prior draws)).length) :
    (ratingPosterior table prior draws).players.get player ∈ (ofTable table).players.toList := by
  have listed := Posterior.name_mem ((ofTable table).terms prior draws) player
  exact (congrArg (_ ∈ ·) (players_of_terms table prior draws)).mp listed

theorem mem_rating_posterior {term : Term String α}
    (member : term ∈ (ofTable table).terms prior draws) :
    Posterior.place (ratingPosterior table prior draws).players term ∈
      (ratingPosterior table prior draws).terms :=
  List.mem_map_of_mem member

variable {lost : α → Prop} (absorbing : Absorbing lost) {link : Link α}

/-- What makes every component of the Newton steps from some strengths a lost value. -/
inductive Spoilt (lost : α → Prop) (table : Crosstable) (prior draws : α)
    (strengths : Vector α (Posterior.playersOf ((ofTable table).terms prior draws)).length) : Prop
  | prior (gone : lost prior)
  | draws (some : 0 < draws) (notNone : ¬ draws ≤ 0) (gone : lost draws)
  | strength (player : Fin (Posterior.playersOf ((ofTable table).terms prior draws)).length)
      (gone : lost (strengths.get player))

include absorbing

theorem gradient_of_spoilt
    {strengths : Vector α (Posterior.playersOf ((ofTable table).terms prior draws)).length}
    (spoilt : Spoilt lost table prior draws strengths)
    (player : Fin (Posterior.playersOf ((ofTable table).terms prior draws)).length) :
    lost (((ratingPosterior table prior draws).gradient link strengths).get player) := by
  have center : Term.center (ofTable table).players.toList prior ∈
      (ofTable table).terms prior draws :=
    List.mem_append_right _ (List.mem_singleton_self _)
  have centered (player : Fin (Posterior.playersOf ((ofTable table).terms prior draws)).length) :
      (player, 1 / Scalar.ofNat (max (ofTable table).players.toList.length 1)) ∈
        (Posterior.place (ratingPosterior table prior draws).players
          (Term.center (ofTable table).players.toList prior)).combo :=
    Posterior.mentioned_of_named (List.mem_map.mpr ⟨_, name_listed player, rfl⟩)
  cases spoilt with
  | prior gone =>
      apply absorbing.gradient (mem_rating_posterior center) (centered player)
      apply absorbing.slope_of_combination rfl
      exact absorbing.combination_of_offset _ (absorbing.div _ _ (absorbing.neg _ gone))
  | draws some notNone gone =>
      let anchor : Term String α := ⟨[((ratingPosterior table prior draws).players.get player, 1)],
        -(prior / Term.eloPerStrength), 0.5 * draws, .sigmoid⟩
      have drawn : anchor ∈ (ofTable table).terms prior draws := by
        apply List.mem_append_left
        apply List.mem_append_right
        rw [if_pos some]
        refine List.mem_flatMap.mpr ⟨_, name_listed player, ?_⟩
        rw [Term.anchored, if_neg notNone]
        exact List.mem_cons_self
      apply absorbing.gradient (mem_rating_posterior drawn)
        (Posterior.mentioned_of_named (List.mem_singleton_self _))
      exact absorbing.slope_of_weight _ (absorbing.mul_right _ _ gone)
  | strength other gone =>
      apply absorbing.gradient (mem_rating_posterior center) (centered player)
      apply absorbing.slope_of_combination rfl
      exact absorbing.combination_of_strength (centered other) gone

theorem step_of_spoilt
    {stride : Fit.Stride α (Posterior.playersOf ((ofTable table).terms prior draws)).length}
    (taken : Fit.stride? link (ratingPosterior table prior draws) stride.start = some stride)
    (spoilt : Spoilt lost table prior draws stride.start.strengths)
    (player : Fin (Posterior.playersOf ((ofTable table).terms prior draws)).length) :
    lost (stride.step.get player) :=
  absorbing.solve (gradient_of_spoilt absorbing spoilt) (Fit.stride_eq_some taken).2.1 player

end ScoreMatrix

end KifuRatings
