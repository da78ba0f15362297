import KifuRatings.Proofs.Rating.Exact
import KifuRatings.Rating.Elimination

/-!
# What elimination decides

With exact arithmetic an accepted system has exactly one solution on every right-hand side, and
elimination finds it: a pivot that is accepted is not zero, so the reduced equations hold together
with the pivot just when the system holds. A system is refused only if some direction is flat, in
the sense that every equation takes it to at most the least pivot; and a direction that is flat
enough makes sure that it is refused.
-/

namespace KifuRatings

theorem get_tail {α : Type} {size : Nat} (vector : Vector α (size + 1)) (index : Fin size) :
    vector.tail.get index = vector.get index.succ := by
  rw [Vector.get_eq_getElem, Vector.get_eq_getElem]
  exact Vector.getElem_tail _

/-- The first entry changes places with another one and is left out. -/
theorem get_tail_swap {α : Type} {size : Nat} (vector : Vector α (size + 1))
    (index : Fin (size + 1)) (row : Fin size) :
    (vector.swap 0 index size.succ_pos index.isLt).tail.get row =
      vector.get (Equiv.swap 0 index row.succ) := by
  rw [get_tail, Vector.get_eq_getElem, Vector.getElem_swap, Equiv.swap_apply_def,
    if_neg (Fin.succ_ne_zero row)]
  simp only [Fin.val_succ, Nat.succ_ne_zero, if_false, Fin.ext_iff]
  split
  · rfl
  · rfl

theorem get_zip_with {α β γ : Type} {size : Nat} (combine : α → β → γ) (left : Vector α size)
    (right : Vector β size) (index : Fin size) :
    (left.zipWith combine right).get index = combine (left.get index) (right.get index) := by
  rw [Vector.get_eq_getElem, Vector.get_eq_getElem, Vector.get_eq_getElem]
  exact Vector.getElem_zipWith _

@[simp]
theorem get_of_fn {α : Type} {size : Nat} (value : Fin size → α) :
    (Vector.ofFn value).get = value :=
  funext fun index => Vector.get_ofFn value index

theorem to_list_eq_map {α : Type} {size : Nat} (vector : Vector α size) :
    vector.toList = (List.finRange size).map vector.get := by
  rw [← List.ofFn_eq_map, ← Vector.toList_ofFn]
  congr 1
  apply Vector.ext
  intro index inside
  rw [Vector.getElem_ofFn]
  rfl

theorem vector_ext {α : Type} {size : Nat} {left right : Vector α size}
    (same : ∀ index, left.get index = right.get index) : left = right := by
  apply Vector.ext
  intro index inside
  exact same ⟨index, inside⟩

namespace Elimination

variable {unknowns sides : Nat}

def Equation.left (equation : Equation ℝ unknowns sides) (values : Fin unknowns → ℝ) : ℝ :=
  ∑ unknown, equation.coefficients.get unknown * values unknown

def Equation.Holds (equation : Equation ℝ unknowns sides) (side : Fin sides)
    (values : Fin unknowns → ℝ) : Prop :=
  equation.left values = equation.constants.get side

theorem left_cons (equation : Equation ℝ (unknowns + 1) sides) (first : ℝ)
    (rest : Fin unknowns → ℝ) :
    equation.left (Fin.cons first rest) = equation.lead * first + equation.drop.left rest := by
  unfold Equation.left
  rw [Fin.sum_univ_succ]
  simp only [Fin.cons_zero, Fin.cons_succ]
  congr 1
  apply Finset.sum_congr rfl
  intro unknown _
  rw [Equation.drop, get_tail]

theorem left_reduce {pivot : Equation ℝ (unknowns + 1) sides} (used : pivot.lead ≠ 0)
    (equation : Equation ℝ (unknowns + 1) sides) (first : ℝ) (rest : Fin unknowns → ℝ) :
    (Equation.reduce pivot equation).left rest = equation.left (Fin.cons first rest) -
      equation.lead / pivot.lead * pivot.left (Fin.cons first rest) := by
  rw [left_cons, left_cons]
  by_cases nothing : equation.lead / pivot.lead = 0
  · have noLead : equation.lead = 0 := (div_eq_zero_iff.mp nothing).resolve_right used
    simp [Equation.reduce, noLead]
  · have cancelled : equation.lead / pivot.lead * pivot.lead = equation.lead :=
      div_mul_cancel₀ _ used
    have taken : (Equation.reduce pivot equation).left rest =
        equation.drop.left rest - equation.lead / pivot.lead * pivot.drop.left rest := by
      simp only [Equation.left, Finset.mul_sum, ← Finset.sum_sub_distrib]
      apply Finset.sum_congr rfl
      intro unknown _
      simp only [Equation.reduce, Equation.drop, beq_iff_eq, nothing, if_false]
      rw [get_tail, get_tail, get_tail, get_zip_with]
      ring
    rw [taken]
    linear_combination first * cancelled

theorem constants_reduce (pivot equation : Equation ℝ (unknowns + 1) sides) (side : Fin sides) :
    (Equation.reduce pivot equation).constants.get side = equation.constants.get side -
      equation.lead / pivot.lead * pivot.constants.get side := by
  unfold Equation.reduce
  by_cases nothing : equation.lead / pivot.lead = 0
  · simp [nothing, Equation.drop]
  · simp only [beq_iff_eq, nothing, if_false]
    exact get_zip_with ..

theorem holds_reduce_iff {pivot : Equation ℝ (unknowns + 1) sides} (used : pivot.lead ≠ 0)
    {equation : Equation ℝ (unknowns + 1) sides} {side : Fin sides} {first : ℝ}
    {rest : Fin unknowns → ℝ} (holds : pivot.Holds side (Fin.cons first rest)) :
    (Equation.reduce pivot equation).Holds side rest ↔
      equation.Holds side (Fin.cons first rest) := by
  unfold Equation.Holds at holds ⊢
  rw [left_reduce used equation first rest, constants_reduce, holds]
  exact sub_left_inj

theorem holds_pivot_iff {pivot : Equation ℝ (unknowns + 1) sides} (used : pivot.lead ≠ 0)
    {others : Vector (Vector ℝ sides) unknowns} {side : Fin sides} {first : ℝ} :
    pivot.Holds side (Fin.cons first fun unknown => (others.get unknown).get side) ↔
      first = (pivot.solveLead others).get side := by
  have tail : Scalar.sum ((List.finRange unknowns).map fun unknown =>
      pivot.coefficients.get unknown.succ * (others.get unknown).get side) =
      pivot.drop.left fun unknown => (others.get unknown).get side := by
    rw [Scalar.sum_exact, ← List.ofFn_eq_map, List.sum_ofFn]
    unfold Equation.left Equation.drop
    simp only [get_tail]
  unfold Equation.Holds Equation.solveLead
  rw [left_cons, Vector.get_ofFn, tail, eq_div_iff used, eq_sub_iff_add_eq, mul_comm]

/-! ## Choosing a pivot -/

section Pivot

variable {count : Nat} (system : Vector (Equation ℝ (unknowns + 1) sides) (count + 1))

noncomputable def pivot : Equation ℝ (unknowns + 1) sides := system.get (pivotIndex system)

noncomputable def others : Vector (Equation ℝ (unknowns + 1) sides) count :=
  (system.swap 0 (pivotIndex system) count.succ_pos (pivotIndex system).isLt).tail

noncomputable def reduced : Vector (Equation ℝ unknowns sides) count :=
  (others system).map (pivot system).reduce

theorem lead_le_pivot (row : Fin (count + 1)) : |(system.get row).lead| ≤ |(pivot system).lead| :=
  Scalar.key_le_last_greatest (fun row => |(system.get row).lead|) 0 (List.mem_finRange row)

theorem get_others (row : Fin count) :
    (others system).get row =
      if row.succ = pivotIndex system then system.get 0 else system.get row.succ := by
  rw [others, get_tail_swap, Equiv.swap_apply_def, if_neg (Fin.succ_ne_zero row), apply_ite system.get]

theorem forall_rows_iff (holds : Equation ℝ (unknowns + 1) sides → Prop) :
    (∀ row, holds (system.get row)) ↔
      holds (pivot system) ∧ ∀ row, holds ((others system).get row) := by
  constructor
  · intro all
    refine ⟨all _, ?_⟩
    intro row
    rw [get_others]
    split
    · exact all 0
    · exact all row.succ
  · intro both row
    by_cases isPivot : row = pivotIndex system
    · rw [isPivot]
      exact both.1
    · cases row using Fin.cases with
      | succ row =>
          have other := both.2 row
          rwa [get_others, if_neg isPivot] at other
      | zero =>
          -- The first equation has changed places with the pivot.
          obtain ⟨place, isPlace⟩ := Fin.exists_succ_eq.mpr (Ne.symm isPivot)
          have other := both.2 place
          rwa [get_others, if_pos isPlace] at other

theorem lead_others_le_pivot (row : Fin count) :
    |((others system).get row).lead| ≤ |(pivot system).lead| := by
  have all := lead_le_pivot system
  rw [forall_rows_iff system fun equation => |equation.lead| ≤ |(pivot system).lead|] at all
  exact all.2 row

end Pivot

section Step

variable {system : Vector (Equation ℝ (unknowns + 1) sides) (unknowns + 1)} {least : ℝ}

theorem solve_above_succ (least : ℝ)
    (system : Vector (Equation ℝ (unknowns + 1) sides) (unknowns + 1)) :
    solveAbove least system =
      if |(pivot system).lead| ≤ least then none
      else (solveAbove least (reduced system)).map fun rest =>
        prepend ((pivot system).solveLead rest) rest := rfl

theorem solve_above_eq_some {solution : Vector (Vector ℝ sides) (unknowns + 1)}
    (solved : solveAbove least system = some solution) :
    least < |(pivot system).lead| ∧ ∃ rest, solveAbove least (reduced system) = some rest ∧
      solution = prepend ((pivot system).solveLead rest) rest := by
  rw [solve_above_succ] at solved
  split at solved
  · simp at solved
  · rename_i accepted
    obtain ⟨rest, solvedRest, same⟩ := Option.map_eq_some_iff.mp solved
    exact ⟨not_le.mp accepted, rest, solvedRest, same.symm⟩

theorem pivot_used (nonneg : 0 ≤ least) (accepted : least < |(pivot system).lead|) :
    (pivot system).lead ≠ 0 :=
  abs_pos.mp (nonneg.trans_lt accepted)

theorem left_reduced (used : (pivot system).lead ≠ 0) (row : Fin unknowns) (first : ℝ)
    (rest : Fin unknowns → ℝ) :
    ((reduced system).get row).left rest = ((others system).get row).left (Fin.cons first rest) -
      ((others system).get row).lead / (pivot system).lead *
        (pivot system).left (Fin.cons first rest) := by
  rw [reduced, Vector.get_map]
  exact left_reduce used _ first rest

theorem holds_rows_iff (used : (pivot system).lead ≠ 0) {side : Fin sides} {first : ℝ}
    {rest : Fin unknowns → ℝ} :
    (∀ row, (system.get row).Holds side (Fin.cons first rest)) ↔
      (pivot system).Holds side (Fin.cons first rest) ∧
        ∀ row, ((reduced system).get row).Holds side rest := by
  rw [forall_rows_iff system fun equation => equation.Holds side (Fin.cons first rest)]
  apply and_congr_right
  intro holds
  apply forall_congr'
  intro row
  rw [reduced, Vector.get_map, holds_reduce_iff used holds]

end Step

/-- An accepted system has one solution on every right-hand side, and this is the one found. -/
theorem solve_above_unique {least : ℝ} (nonneg : 0 ≤ least)
    {system : Vector (Equation ℝ unknowns sides) unknowns}
    {solution : Vector (Vector ℝ sides) unknowns} (solved : solveAbove least system = some solution)
    (side : Fin sides) (values : Fin unknowns → ℝ) :
    (∀ row, (system.get row).Holds side values) ↔
      ∀ unknown, values unknown = (solution.get unknown).get side := by
  induction unknowns with
  | zero => exact ⟨fun _ unknown => unknown.elim0, fun _ row => row.elim0⟩
  | succ unknowns induction =>
      obtain ⟨accepted, rest, solvedRest, rfl⟩ := solve_above_eq_some solved
      have used := pivot_used nonneg accepted
      have sameRest := induction solvedRest (Fin.tail values)
      rw [← Fin.cons_self_tail values, holds_rows_iff used, sameRest, Fin.forall_fin_succ, and_comm,
        and_comm (a := _ = _)]
      simp only [prepend, Vector.get_ofFn, Fin.cases_zero, Fin.cases_succ, Fin.cons_zero,
        Fin.cons_succ]
      apply and_congr_right
      intro found
      rw [show Fin.tail values = fun unknown => (rest.get unknown).get side from funext found]
      exact holds_pivot_iff used

theorem flat_of_refused {least : ℝ} (nonneg : 0 ≤ least)
    {system : Vector (Equation ℝ unknowns sides) unknowns}
    (refused : solveAbove least system = none) :
    ∃ direction : Fin unknowns → ℝ, (∃ unknown, direction unknown = 1) ∧
      ∀ row, |(system.get row).left direction| ≤ least := by
  induction unknowns with
  | zero => simp [solveAbove] at refused
  | succ unknowns induction =>
      rw [solve_above_succ] at refused
      split at refused
      · rename_i small
        refine ⟨Fin.cons 1 fun _ => 0, ⟨0, rfl⟩, fun row => ?_⟩
        have onlyLead : (system.get row).left (Fin.cons 1 fun _ => 0) = (system.get row).lead := by
          rw [left_cons, mul_one]
          simp [Equation.left]
        rw [onlyLead]
        exact (lead_le_pivot system row).trans small
      · rename_i accepted
        have used := pivot_used nonneg (not_le.mp accepted)
        obtain ⟨rest, ⟨unknown, one⟩, flat⟩ := induction (Option.map_eq_none_iff.mp refused)
        -- The first unknown is chosen so that the pivot takes the direction to zero.
        let first := -(pivot system).drop.left rest / (pivot system).lead
        have pivotFlat : (pivot system).left (Fin.cons first rest) = 0 := by
          rw [left_cons, mul_div_cancel₀ _ used]
          exact neg_add_cancel _
        refine ⟨Fin.cons first rest, ⟨unknown.succ, one⟩, ?_⟩
        rw [forall_rows_iff system fun equation => |equation.left (Fin.cons first rest)| ≤ least]
        constructor
        · rw [pivotFlat, abs_zero]
          exact nonneg
        · intro row
          have small := flat row
          rwa [left_reduced used row first, pivotFlat, mul_zero, sub_zero] at small

/-- An accepted system is not flat. Every elimination at most doubles what the equations make of
a direction, since no equation takes more than the whole pivot. -/
theorem steep_of_accepted {least : ℝ} (nonneg : 0 ≤ least)
    {system : Vector (Equation ℝ (unknowns + 1) sides) (unknowns + 1)}
    {solution : Vector (Vector ℝ sides) (unknowns + 1)}
    (solved : solveAbove least system = some solution) {direction : Fin (unknowns + 1) → ℝ}
    (long : 1 ≤ |direction (Fin.last unknowns)|) {bound : ℝ}
    (bounded : ∀ row, |(system.get row).left direction| ≤ bound) :
    least < 2 ^ unknowns * bound := by
  induction unknowns generalizing bound with
  | zero =>
      obtain ⟨accepted, _⟩ := solve_above_eq_some solved
      have pivotBounded : |(pivot system).left direction| ≤ bound := bounded _
      have onlyLead : (pivot system).left direction = (pivot system).lead * direction 0 := by
        rw [Equation.left, Fin.sum_univ_one]
        rfl
      rw [onlyLead, abs_mul] at pivotBounded
      calc
        least < |(pivot system).lead| := accepted
        _ ≤ |(pivot system).lead| * |direction 0| := le_mul_of_one_le_right (abs_nonneg _) long
        _ ≤ 2 ^ 0 * bound := by rwa [pow_zero, one_mul]
  | succ unknowns induction =>
      obtain ⟨accepted, rest, solvedRest, _⟩ := solve_above_eq_some solved
      have used := pivot_used nonneg accepted
      rw [forall_rows_iff system fun equation => |equation.left direction| ≤ bound] at bounded
      have reducedBounded : ∀ row, |((reduced system).get row).left (Fin.tail direction)| ≤
          2 * bound := by
        intro row
        have factor : |((others system).get row).lead / (pivot system).lead| ≤ 1 := by
          rw [abs_div, div_le_one (abs_pos.mpr used)]
          exact lead_others_le_pivot system row
        rw [left_reduced used row (direction 0), Fin.cons_self_tail]
        calc
          _ ≤ |((others system).get row).left direction| +
              |((others system).get row).lead / (pivot system).lead| *
                |(pivot system).left direction| := by
            rw [← abs_mul]
            exact abs_sub _ _
          _ ≤ bound + 1 * bound :=
            add_le_add (bounded.2 row)
              (mul_le_mul factor bounded.1 (abs_nonneg _) zero_le_one)
          _ = 2 * bound := by ring
      calc
        least < 2 ^ unknowns * (2 * bound) := induction solvedRest long reducedBounded
        _ = 2 ^ (unknowns + 1) * bound := by ring

end Elimination

namespace Grid

open Elimination Matrix

variable {size : Nat}

def toMatrix (grid : Grid ℝ size) : Matrix (Fin size) (Fin size) ℝ := Matrix.of grid.entry

noncomputable def largest (grid : Grid ℝ size) : ℝ :=
  Scalar.greatestAbs (grid.toList.flatMap (·.toList))

noncomputable def threshold (grid : Grid ℝ size) : ℝ := tolerance * grid.largest

/-- The matrix takes a direction to next to nothing. -/
def Flat (grid : Grid ℝ size) (bound : ℝ) (direction : Fin size → ℝ) : Prop :=
  ∀ row, |(grid.toMatrix *ᵥ direction) row| ≤ bound

theorem mem_entries {grid : Grid ℝ size} {value : ℝ} :
    value ∈ grid.toList.flatMap (·.toList) ↔ ∃ row column, grid.entry row column = value := by
  simp only [List.mem_flatMap, Vector.mem_toList_iff, Vector.mem_iff_getElem]
  constructor
  · intro listed
    obtain ⟨_, ⟨row, inRows, rfl⟩, column, inColumns, rfl⟩ := listed
    exact ⟨⟨row, inRows⟩, ⟨column, inColumns⟩, rfl⟩
  · intro found
    obtain ⟨row, column, rfl⟩ := found
    exact ⟨_, ⟨row, row.isLt, rfl⟩, column, column.isLt, rfl⟩

theorem entry_le_largest (grid : Grid ℝ size) (row column : Fin size) :
    |grid.entry row column| ≤ grid.largest :=
  Scalar.abs_le_greatest (mem_entries.mpr ⟨row, column, rfl⟩)

theorem largest_le {grid : Grid ℝ size} {bound : ℝ} (nonneg : 0 ≤ bound)
    (bounded : ∀ row column, |grid.entry row column| ≤ bound) : grid.largest ≤ bound := by
  apply Scalar.greatest_abs_le nonneg
  intro value member
  obtain ⟨row, column, rfl⟩ := mem_entries.mp member
  exact bounded row column

theorem largest_nonneg (grid : Grid ℝ size) : 0 ≤ grid.largest := Scalar.greatest_abs_nonneg _

theorem tolerance_pos : 0 < (tolerance : ℝ) := by
  change (0 : ℝ) < 1e-12
  norm_num

theorem threshold_nonneg (grid : Grid ℝ size) : 0 ≤ grid.threshold :=
  mul_nonneg tolerance_pos.le grid.largest_nonneg

section Sides

variable {sides : Nat} {grid : Grid ℝ size} {system : Vector (Equation ℝ size sides) size}

theorem left_eq (rows : ∀ row, (system.get row).coefficients = grid.get row)
    (values : Fin size → ℝ) (row : Fin size) :
    (system.get row).left values = (grid.toMatrix *ᵥ values) row := by
  rw [Equation.left, rows]
  rfl

theorem largest_eq (rows : ∀ row, (system.get row).coefficients = grid.get row) :
    Scalar.greatestAbs (system.toList.flatMap (·.coefficients.toList)) = grid.largest := by
  have sameRows : system.map (·.coefficients) = grid := by
    apply vector_ext
    intro row
    rw [Vector.get_map, rows]
  rw [largest, ← sameRows, Vector.toList_map, List.flatMap_map]

theorem solve_sides_eq (rows : ∀ row, (system.get row).coefficients = grid.get row) :
    solveSides system =
      if size = 0 ∨ grid.largest = 0 then none else solveAbove grid.threshold system := by
  unfold solveSides threshold
  rw [largest_eq rows]
  simp only [Bool.or_eq_true, decide_eq_true_eq, beq_iff_eq]

theorem solve_sides_unique (rows : ∀ row, (system.get row).coefficients = grid.get row)
    {solution : Vector (Vector ℝ sides) size} (solved : solveSides system = some solution)
    (side : Fin sides) (values : Fin size → ℝ) :
    (∀ row, (grid.toMatrix *ᵥ values) row = (system.get row).constants.get side) ↔
      ∀ unknown, values unknown = (solution.get unknown).get side := by
  rw [solve_sides_eq rows] at solved
  split at solved
  · simp at solved
  · rw [← solve_above_unique grid.threshold_nonneg solved]
    simp only [Equation.Holds, left_eq rows]

theorem solve_sides_flat (rows : ∀ row, (system.get row).coefficients = grid.get row)
    (some : 0 < size) (refused : solveSides system = none) :
    ∃ direction, (∃ unknown, direction unknown = 1) ∧ grid.Flat grid.threshold direction := by
  rw [solve_sides_eq rows] at refused
  split at refused
  · rename_i nothing
    have zero : grid.largest = 0 := nothing.resolve_left some.ne'
    refine ⟨Pi.single ⟨0, some⟩ 1, ⟨⟨0, some⟩, Pi.single_eq_same _ _⟩, fun row => ?_⟩
    rw [mulVec_single_one, threshold, zero, mul_zero]
    exact (grid.entry_le_largest row ⟨0, some⟩).trans_eq zero
  · obtain ⟨direction, one, flat⟩ := flat_of_refused grid.threshold_nonneg refused
    refine ⟨direction, one, fun row => ?_⟩
    rw [← left_eq rows]
    exact flat row

theorem solve_sides_refused (rows : ∀ row, (system.get row).coefficients = grid.get row)
    {last : Fin size} (isLast : last.val + 1 = size) {direction : Fin size → ℝ}
    (long : 1 ≤ |direction last|) {bound : ℝ} (flat : grid.Flat bound direction)
    (small : 2 ^ last.val * bound ≤ grid.threshold) : solveSides system = none := by
  rw [solve_sides_eq rows]
  split
  · rfl
  · rw [Option.eq_none_iff_forall_ne_some]
    intro solution solved
    cases size with
    | zero => exact last.elim0
    | succ size =>
        obtain rfl : last = Fin.last size := Fin.ext (Nat.succ_injective isLast)
        have bounded : ∀ row, |(system.get row).left direction| ≤ bound := by
          intro row
          rw [left_eq rows]
          exact flat row
        exact absurd (steep_of_accepted grid.threshold_nonneg solved long bounded) small.not_gt

end Sides

variable {matrix : Grid ℝ size}

theorem rows_of_constants (constants : Vector ℝ size) (row : Fin size) :
    (matrix.zipWith (fun row constant => (⟨row, #v[constant]⟩ : Equation ℝ size 1))
      constants).get row = ⟨matrix.get row, #v[constants.get row]⟩ :=
  get_zip_with _ _ _ _

/-- What is solved is solved exactly, and nothing else solves it. -/
theorem solve_unique {constants solution : Vector ℝ size}
    (solved : matrix.solve constants = some solution) (values : Fin size → ℝ) :
    matrix.toMatrix *ᵥ values = constants.get ↔ values = solution.get := by
  obtain ⟨columns, solvedColumns, rfl⟩ := Option.map_eq_some_iff.mp solved
  have unique := solve_sides_unique (fun row => by rw [rows_of_constants]) solvedColumns 0 values
  simp only [rows_of_constants] at unique
  rw [funext_iff, funext_iff]
  simp only [Vector.get_map]
  exact unique

theorem solve_flat {constants : Vector ℝ size} (some : 0 < size)
    (refused : matrix.solve constants = none) :
    ∃ direction, (∃ unknown, direction unknown = 1) ∧ matrix.Flat matrix.threshold direction :=
  solve_sides_flat (fun row => by rw [rows_of_constants]) some (Option.map_eq_none_iff.mp refused)

theorem solve_refused {last : Fin size} (isLast : last.val + 1 = size) {direction : Fin size → ℝ}
    (long : 1 ≤ |direction last|) {bound : ℝ} (flat : matrix.Flat bound direction)
    (small : 2 ^ last.val * bound ≤ matrix.threshold) (constants : Vector ℝ size) :
    matrix.solve constants = none :=
  Option.map_eq_none_iff.mpr
    (solve_sides_refused (fun row => by rw [rows_of_constants]) isLast long flat small)

theorem solve_of_kernel {direction : Fin size → ℝ} (nonzero : direction ≠ 0)
    (kernel : matrix.toMatrix *ᵥ direction = 0) (constants : Vector ℝ size) :
    matrix.solve constants = none := by
  rw [Option.eq_none_iff_forall_ne_some]
  intro solution solved
  have sum := (solve_unique solved (solution.get + direction)).mp (by
    rw [mulVec_add, kernel, add_zero]
    exact (solve_unique solved _).mpr rfl)
  exact nonzero (left_eq_add.mp sum.symm)

theorem inverse_unique {inverse : Grid ℝ size} (inverted : matrix.inverse = some inverse)
    (column : Fin size) (values : Fin size → ℝ) :
    matrix.toMatrix *ᵥ values = Pi.single column 1 ↔
      values = fun row => inverse.entry row column := by
  have unique := solve_sides_unique (fun row => by rw [Vector.get_ofFn]) inverted column values
  simp only [Vector.get_ofFn] at unique
  rw [funext_iff, funext_iff]
  simp only [Pi.single_apply]
  exact unique

theorem inverse_flat (some : 0 < size) (refused : matrix.inverse = none) :
    ∃ direction, (∃ unknown, direction unknown = 1) ∧ matrix.Flat matrix.threshold direction :=
  solve_sides_flat (fun row => by rw [Vector.get_ofFn]) some refused

end Grid

end KifuRatings
