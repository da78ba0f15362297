import KifuRatings.Proofs.Rating.Rational

/-!
# A matrix is inverted or has no pivot

A matrix whose leading columns can be eliminated, each with a pivot that counts, is invertible, and
what elimination finds is exact. Elimination gives up only at a column in which every entry that is
left is next to nothing, measured by the largest entry of the matrix it began with.
-/

namespace KifuRatings

open Matrix

namespace Elimination

section Columns

variable {K : Type} [Field K]

/-- What is left of the other rows without their first column: from each goes the multiple of the
pivot row that cancels its leading entry. -/
def remainder {size : ℕ} (pivot : Fin (size + 1) → K)
    (others : Matrix (Fin size) (Fin (size + 1)) K) : Matrix (Fin size) (Fin size) K :=
  Matrix.of fun row => vecTail (others row) - (vecHead (others row) / vecHead pivot) • vecTail pivot

variable [LinearOrder K]

/-- Some leading columns of the first matrix are eliminated, one after the other, and the second
matrix is left. The pivot of a column has the greatest magnitude in it, and its row changes places
with the first row. -/
inductive Eliminates : {size left : ℕ} → Matrix (Fin size) (Fin size) K →
    Matrix (Fin left) (Fin left) K → Prop
  | nothing {size : ℕ} (matrix : Matrix (Fin size) (Fin size) K) : Eliminates matrix matrix
  | column {size left : ℕ} {matrix : Matrix (Fin (size + 1)) (Fin (size + 1)) K}
      {rest : Matrix (Fin left) (Fin left) K} (pivot : Fin (size + 1))
      (used : matrix pivot 0 ≠ 0) (greatest : ∀ row, |matrix row 0| ≤ |matrix pivot 0|)
      (later : Eliminates (remainder (matrix pivot) fun row => matrix (Equiv.swap 0 pivot row.succ))
        rest) : Eliminates matrix rest

end Columns

theorem remainder_real {size : ℕ} (pivot : Fin (size + 1) → ℚ)
    (others : Matrix (Fin size) (Fin (size + 1)) ℚ) :
    (remainder pivot others).map (Rat.castHom ℝ) =
      remainder (Rat.castHom ℝ ∘ pivot) (others.map (Rat.castHom ℝ)) := by
  ext row column
  simp [remainder, vecHead, vecTail]

theorem eliminates_rational {size left : ℕ} {matrix : Matrix (Fin size) (Fin size) ℚ}
    {rest : Matrix (Fin left) (Fin left) ℝ}
    (eliminates : Eliminates (matrix.map (Rat.castHom ℝ)) rest) :
    ∃ rational : Matrix (Fin left) (Fin left) ℚ, rest = rational.map (Rat.castHom ℝ) ∧
      Eliminates matrix rational := by
  generalize same : matrix.map (Rat.castHom ℝ) = reals at eliminates
  induction eliminates with
  | nothing => exact ⟨matrix, same.symm, .nothing _⟩
  | column pivot used greatest later induction =>
      subst same
      simp only [map_apply, eq_ratCast] at used greatest
      obtain ⟨rational, isRest, laterRational⟩ := induction (remainder_real _ _)
      refine ⟨rational, isRest, .column pivot (Rat.cast_ne_zero.mp used) ?_ laterRational⟩
      intro row
      have atMost := greatest row
      rwa [← Rat.cast_abs, ← Rat.cast_abs, Rat.cast_le] at atMost

section Reals

variable {unknowns sides : ℕ}

def coefficients (system : Vector (Equation ℝ unknowns sides) unknowns) :
    Matrix (Fin unknowns) (Fin unknowns) ℝ :=
  Matrix.of fun row => (system.get row).coefficients.get

theorem left_single (equation : Equation ℝ unknowns sides) (unknown : Fin unknowns) :
    equation.left (Pi.single unknown 1) = equation.coefficients.get unknown := by
  unfold Equation.left
  rw [Fintype.sum_eq_single unknown, Pi.single_eq_same, mul_one]
  intro other different
  rw [Pi.single_eq_of_ne different, mul_zero]

theorem coefficients_reduced
    {system : Vector (Equation ℝ (unknowns + 1) sides) (unknowns + 1)}
    (used : (pivot system).lead ≠ 0) :
    coefficients (reduced system) = remainder (coefficients system (pivotIndex system))
      fun row => coefficients system (Equiv.swap 0 (pivotIndex system) row.succ) := by
  ext row column
  have single : (Fin.cons 0 (Pi.single column 1) : Fin (unknowns + 1) → ℝ) =
      Pi.single column.succ 1 := by
    funext unknown
    cases unknown using Fin.cases with
    | zero => simp
    | succ unknown => simp [Pi.single_apply]
  have step := left_reduced used row 0 (Pi.single column 1)
  rw [single, left_single, left_single, left_single, others, get_tail_swap] at step
  exact step

theorem column_of_refused {least : ℝ} (nonneg : 0 ≤ least)
    {system : Vector (Equation ℝ unknowns sides) unknowns}
    (refused : solveAbove least system = none) :
    ∃ (left : ℕ) (rest : Matrix (Fin (left + 1)) (Fin (left + 1)) ℝ),
      Eliminates (coefficients system) rest ∧ ∀ row, |rest row 0| ≤ least := by
  induction unknowns with
  | zero => simp [solveAbove] at refused
  | succ unknowns induction =>
      rw [solve_above_succ] at refused
      split at refused
      · rename_i small
        exact ⟨unknowns, coefficients system, .nothing _, fun row =>
          (lead_le_pivot system row).trans small⟩
      · rename_i accepted
        have used := pivot_used nonneg (not_le.mp accepted)
        obtain ⟨left, rest, eliminates, small⟩ := induction (Option.map_eq_none_iff.mp refused)
        rw [coefficients_reduced used] at eliminates
        exact ⟨left, rest, .column _ used (lead_le_pivot system) eliminates, small⟩

end Reals

end Elimination

namespace Grid

open Elimination

variable {size : ℕ}

/-- After some leading columns have been eliminated, nothing in the next column exceeds a millionth
of a millionth of the largest entry. -/
def WithoutPivot (matrix : Matrix (Fin size) (Fin size) ℚ) : Prop :=
  ∃ (left : ℕ) (rest : Matrix (Fin (left + 1)) (Fin (left + 1)) ℚ) (largest : ℚ),
    Eliminates matrix rest ∧
      IsGreatest (Set.range fun place : Fin size × Fin size => |matrix place.1 place.2|) largest ∧
        ∀ row, |vecHead (rest row)| ≤ 1e-12 * largest

theorem to_matrix_real (matrix : Grid ℚ size) :
    matrix.real.toMatrix = (Matrix.of matrix.entry).map (Rat.castHom ℝ) := by
  ext row column
  exact entry_real matrix row column

theorem mul_vec_real (matrix : Grid ℚ size) (values : Fin size → ℚ) (row : Fin size) :
    (matrix.real.toMatrix *ᵥ fun unknown => (values unknown : ℝ)) row =
      (Matrix.of matrix.entry *ᵥ values) row := by
  rw [to_matrix_real]
  exact (RingHom.map_mulVec (Rat.castHom ℝ) _ values row).symm

theorem solve_rational {matrix : Grid ℚ size} {constants solution : Vector ℚ size}
    (solved : matrix.solve constants = some solution) (values : Fin size → ℚ) :
    Matrix.of matrix.entry *ᵥ values = constants.get ↔ values = solution.get := by
  have solvedReal : matrix.real.solve (realVector constants) = some (realVector solution) := by
    rw [solve_real, solved, Option.map_some]
  have unique := solve_unique solvedReal fun unknown => (values unknown : ℝ)
  simpa only [funext_iff, mul_vec_real, get_real_vector, Rat.cast_inj] using unique

theorem invertible_of_solved {matrix : Grid ℚ size} {constants solution : Vector ℚ size}
    (solved : matrix.solve constants = some solution) : IsUnit (Matrix.of matrix.entry) := by
  rw [← mulVec_injective_iff_isUnit]
  intro values others same
  -- What the matrix does not tell apart can be added to the solution.
  have sum := (solve_rational solved (solution.get + (values - others))).mp (by
    rw [mulVec_add, mulVec_sub, same, sub_self, add_zero]
    exact (solve_rational solved _).mpr rfl)
  exact sub_eq_zero.mp (add_eq_left.mp sum)

theorem inverse_rational {matrix inverse : Grid ℚ size}
    (inverted : matrix.inverse = some inverse) :
    Matrix.of matrix.entry * Matrix.of inverse.entry = 1 := by
  have invertedReal : matrix.real.inverse = some inverse.real := by
    rw [inverse_real, inverted, Option.map_some]
  ext row column
  have columnOfOne := (inverse_unique invertedReal column _).mpr rfl
  simp only [entry_real, funext_iff, mul_vec_real] at columnOfOne
  apply (Rat.cast_injective : Function.Injective ((↑) : ℚ → ℝ))
  refine (columnOfOne row).trans ?_
  rw [Pi.single_apply, one_apply]
  split
  · exact Rat.cast_one.symm
  · exact Rat.cast_zero.symm

theorem largest_real (matrix : Grid ℚ size) (some : 0 < size) :
    ∃ largest : ℚ, matrix.real.largest = largest ∧ IsGreatest
      (Set.range fun place : Fin size × Fin size => |Matrix.of matrix.entry place.1 place.2|)
      largest := by
  have : Nonempty (Fin size × Fin size) := ⟨⟨0, some⟩, ⟨0, some⟩⟩
  obtain ⟨place, greatest⟩ := Finite.exists_max fun place : Fin size × Fin size =>
    |Matrix.of matrix.entry place.1 place.2|
  refine ⟨_, le_antisymm ?_ ?_, ⟨place, rfl⟩, ?_⟩
  · apply largest_le (by positivity)
    intro row column
    rw [entry_real, ← Rat.cast_abs, Rat.cast_le]
    exact greatest (row, column)
  · rw [Rat.cast_abs]
    exact entry_real matrix place.1 place.2 ▸ entry_le_largest matrix.real place.1 place.2
  · intro magnitude among
    obtain ⟨other, rfl⟩ := among
    exact greatest other

theorem without_pivot_of_refused {sides : ℕ} {matrix : Grid ℚ size}
    {system : Vector (Equation ℝ size sides) size}
    (rows : ∀ row, (system.get row).coefficients = matrix.real.get row) (some : 0 < size)
    (refused : solveSides system = none) : WithoutPivot (Matrix.of matrix.entry) := by
  obtain ⟨largest, isLargest, greatest⟩ := largest_real matrix some
  have sameMatrix : coefficients system = (Matrix.of matrix.entry).map (Rat.castHom ℝ) := by
    rw [← to_matrix_real]
    ext row column
    exact congrArg (Vector.get · column) (rows row)
  have found : ∃ (left : ℕ) (rest : Matrix (Fin (left + 1)) (Fin (left + 1)) ℝ),
      Eliminates (coefficients system) rest ∧
        ∀ row, |rest row 0| ≤ matrix.real.threshold := by
    rw [solve_sides_eq rows] at refused
    split at refused
    · rename_i nothing
      have zero : matrix.real.largest = 0 := nothing.resolve_left some.ne'
      obtain ⟨left, rfl⟩ := Nat.exists_eq_add_one.mpr some
      refine ⟨left, coefficients system, .nothing _, fun row => ?_⟩
      rw [threshold, zero, mul_zero, ← zero, coefficients, of_apply, rows]
      exact entry_le_largest matrix.real row 0
    · exact column_of_refused (threshold_nonneg _) refused
  obtain ⟨left, rest, eliminates, small⟩ := found
  rw [sameMatrix] at eliminates
  obtain ⟨rational, rfl, eliminatesRational⟩ := eliminates_rational eliminates
  refine ⟨left, rational, largest, eliminatesRational, greatest, fun row => ?_⟩
  have smallRow := small row
  rw [threshold, isLargest, ← tolerance_real, map_apply, eq_ratCast, ← Rat.cast_abs,
    ← Rat.cast_mul, Rat.cast_le] at smallRow
  exact smallRow

/-- Elimination over the rational numbers finds the only solution and the inverse on both sides, or
it refuses the matrix. Every singular matrix is refused, and otherwise only one that has no pivot
left. -/
theorem elimination_is_exact (matrix : Grid ℚ size) :
    (∀ constants solution, matrix.solve constants = some solution →
      IsUnit (Matrix.of matrix.entry) ∧ ∀ values : Fin size → ℚ,
        Matrix.of matrix.entry *ᵥ values = constants.get ↔ values = solution.get) ∧
    (∀ inverse, matrix.inverse = some inverse →
      Matrix.of matrix.entry * Matrix.of inverse.entry = 1 ∧
        Matrix.of inverse.entry * Matrix.of matrix.entry = 1) ∧
    (size = 0 ∨ ¬IsUnit (Matrix.of matrix.entry) →
      (∀ constants, matrix.solve constants = none) ∧ matrix.inverse = none) ∧
    (0 < size → (∃ constants, matrix.solve constants = none) ∨ matrix.inverse = none →
      WithoutPivot (Matrix.of matrix.entry)) := by
  have twoSided {inverse : Grid ℚ size} (inverted : matrix.inverse = some inverse) :=
    And.intro (inverse_rational inverted) (mul_eq_one_comm.mp (inverse_rational inverted))
  refine ⟨?exact, fun _ => twoSided, ?singular, ?refused⟩
  case exact =>
    intro constants solution solved
    exact ⟨invertible_of_solved solved, solve_rational solved⟩
  case singular =>
    intro singular
    rcases singular with empty | singular
    · subst empty
      exact ⟨fun _ => rfl, rfl⟩
    constructor
    · intro constants
      rw [Option.eq_none_iff_forall_ne_some]
      intro solution solved
      exact singular (invertible_of_solved solved)
    · rw [Option.eq_none_iff_forall_ne_some]
      intro inverse inverted
      obtain ⟨right, left⟩ := twoSided inverted
      exact singular ⟨⟨_, _, right, left⟩, rfl⟩
  case refused =>
    intro some refused
    rcases refused with ⟨constants, refused⟩ | refused
    · have refusedReal : matrix.real.solve (realVector constants) = none := by
        rw [solve_real, refused, Option.map_none]
      exact without_pivot_of_refused (fun row => by rw [rows_of_constants]) some
        (Option.map_eq_none_iff.mp refusedReal)
    · have refusedReal : matrix.real.inverse = none := by
        rw [inverse_real, refused, Option.map_none]
      exact without_pivot_of_refused (fun row => by rw [Vector.get_ofFn]) some refusedReal

def exchangedRows : Grid ℚ 2 := #v[#v[0, 2], #v[1, 0]]

def farApart : Grid ℚ 2 := #v[#v[1, 0], #v[0, 1e-12]]

/-- The rows change places to find a pivot. An invertible matrix is refused if its entries are far
apart. -/
theorem exchanged_rows_are_inverted :
    (exchangedRows.inverse = some #v[#v[0, 1], #v[1 / 2, 0]] ∧
      Matrix.of exchangedRows.entry * Matrix.of (Grid.entry #v[#v[0, 1], #v[1 / 2, 0]]) = 1) ∧
    farApart.solve #v[1, 1] = none ∧ WithoutPivot (Matrix.of farApart.entry) := by
  have inverted : exchangedRows.inverse = some #v[#v[0, 1], #v[1 / 2, 0]] := by decide +kernel
  have refused : farApart.solve #v[1, 1] = none := by decide +kernel
  obtain ⟨_, inverse, _, _⟩ := elimination_is_exact exchangedRows
  obtain ⟨_, _, _, withoutPivot⟩ := elimination_is_exact farApart
  exact ⟨⟨inverted, (inverse _ inverted).1⟩, refused,
    withoutPivot two_pos (.inl ⟨_, refused⟩)⟩

end Grid

end KifuRatings
