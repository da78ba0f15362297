import KifuRatings.Proofs.Rating.Systems

/-!
# Rational arithmetic

The rational numbers as a type to compute with. They are exact as the real numbers are, and whatever
elimination does with them it does with the same numbers read as real ones: every choice of a pivot
is the same, a system is refused by both or by neither, and the solutions are the same numbers.
-/

namespace KifuRatings

instance : Scalar ℚ where
  decidableLT := inferInstance
  decidableLE := inferInstance
  ofNat count := count
  abs value := |value|
  greater := max
  order := compare

def realVector {size : Nat} (values : Vector ℚ size) : Vector ℝ size := values.map (↑)

@[simp]
theorem get_real_vector {size : Nat} (values : Vector ℚ size) (index : Fin size) :
    (realVector values).get index = values.get index := Vector.get_map ..

namespace Scalar

theorem order_real (left right : ℚ) : order (left : ℝ) (right : ℝ) = order left right := by
  change compare (left : ℝ) right = compare left right
  rw [← cmp_eq_compare, ← cmp_eq_compare]
  exact Rat.cast_strictMono.cmp_map_eq left right

theorem foldl_real (values : List ℚ) (combine : ℚ → ℚ → ℚ) (combineReal : ℝ → ℝ → ℝ)
    (same : ∀ left right : ℚ, combineReal left right = combine left right) (start : ℚ) :
    (values.map (fun value : ℚ => (value : ℝ))).foldl combineReal start =
      values.foldl combine start := by
  rw [List.foldl_map]
  induction values generalizing start with
  | nil => rfl
  | cons value values induction => rw [List.foldl_cons, List.foldl_cons, same, induction]

theorem sum_real (values : List ℚ) :
    sum (values.map (fun value : ℚ => (value : ℝ))) = sum values := by
  have same := foldl_real values (· + ·) (· + ·) (fun left right => (Rat.cast_add left right).symm) 0
  rw [Rat.cast_zero] at same
  exact same

theorem greatest_abs_real (values : List ℚ) :
    greatestAbs (values.map (fun value : ℚ => (value : ℝ))) = greatestAbs values := by
  have same := foldl_real values (fun greatest value => max greatest |value|)
    (fun greatest value => max greatest |value|)
    (fun left right => by rw [Rat.cast_max, Rat.cast_abs]) 0
  rw [Rat.cast_zero] at same
  exact same

theorem last_greatest_real {ι : Type} (key : ι → ℚ) (default : ι) (candidates : List ι) :
    lastGreatest (fun candidate => (key candidate : ℝ)) default candidates =
      lastGreatest key default candidates := by
  cases candidates with
  | nil => rfl
  | cons first candidates =>
      unfold lastGreatest
      simp only [order_real]

end Scalar

namespace Elimination

variable {unknowns sides : Nat}

def Equation.real (equation : Equation ℚ unknowns sides) : Equation ℝ unknowns sides :=
  ⟨realVector equation.coefficients, realVector equation.constants⟩

@[simp]
theorem lead_real (equation : Equation ℚ (unknowns + 1) sides) :
    equation.real.lead = equation.lead := get_real_vector ..

theorem drop_real (equation : Equation ℚ (unknowns + 1) sides) :
    equation.real.drop = equation.drop.real := by
  unfold Equation.drop Equation.real
  congr 1
  apply vector_ext
  intro index
  rw [get_tail, get_real_vector, get_real_vector, get_tail]

theorem reduce_real (pivot equation : Equation ℚ (unknowns + 1) sides) :
    pivot.real.reduce equation.real = (pivot.reduce equation).real := by
  have factor : equation.real.lead / pivot.real.lead =
      ((equation.lead / pivot.lead : ℚ) : ℝ) := by
    simp
  have subtract {size : Nat} (values taken : Vector ℚ size) :
      (realVector values).zipWith
          (fun value taken => value - ((equation.lead / pivot.lead : ℚ) : ℝ) * taken)
          (realVector taken) =
        realVector (values.zipWith
          (fun value taken => value - equation.lead / pivot.lead * taken) taken) := by
    apply vector_ext
    intro index
    rw [get_zip_with, get_real_vector, get_real_vector, get_real_vector, get_zip_with]
    push_cast
    rfl
  unfold Equation.reduce
  rw [factor, drop_real]
  by_cases nothing : equation.lead / pivot.lead = 0
  · simp only [nothing, Rat.cast_zero, beq_self_eq_true, if_true]
  · have nothingReal : ((equation.lead / pivot.lead : ℚ) : ℝ) ≠ 0 := Rat.cast_ne_zero.mpr nothing
    simp only [beq_iff_eq, nothing, nothingReal, if_false]
    unfold Equation.real
    simp only [subtract]
    congr 1
    apply vector_ext
    intro index
    rw [get_tail, get_real_vector, get_real_vector, get_tail]

theorem solve_lead_real (pivot : Equation ℚ (unknowns + 1) sides)
    (others : Vector (Vector ℚ sides) unknowns) :
    pivot.real.solveLead (others.map realVector) = realVector (pivot.solveLead others) := by
  apply vector_ext
  intro side
  have tail : (List.finRange unknowns).map (fun index =>
        pivot.real.coefficients.get index.succ * ((others.map realVector).get index).get side) =
      ((List.finRange unknowns).map fun index =>
        pivot.coefficients.get index.succ * (others.get index).get side).map (fun value : ℚ =>
          (value : ℝ)) := by
    rw [List.map_map]
    apply List.map_congr_left
    intro index _
    simp [Equation.real, Vector.get_map]
  unfold Equation.solveLead
  rw [get_real_vector, Vector.get_ofFn, Vector.get_ofFn, tail, Scalar.sum_real, lead_real,
    Equation.real, get_real_vector]
  push_cast
  rfl

theorem prepend_real {size : Nat} (first : Vector ℚ sides) (rest : Vector (Vector ℚ sides) size) :
    prepend (realVector first) (rest.map realVector) = (prepend first rest).map realVector := by
  apply vector_ext
  intro index
  rw [Vector.get_map, prepend, prepend, Vector.get_ofFn, Vector.get_ofFn]
  cases index using Fin.cases with
  | zero => rfl
  | succ index => exact Vector.get_map ..

theorem pivot_index_real {count : Nat}
    (system : Vector (Equation ℚ (unknowns + 1) sides) (count + 1)) :
    pivotIndex (system.map Equation.real) = pivotIndex system := by
  unfold pivotIndex
  rw [← Scalar.last_greatest_real]
  congr 1
  funext row
  rw [Vector.get_map, lead_real]
  exact (Rat.cast_abs _).symm

theorem others_real {count : Nat} (system : Vector (Equation ℚ (unknowns + 1) sides) (count + 1))
    (index : Fin (count + 1)) :
    ((system.map Equation.real).swap 0 index count.succ_pos index.isLt).tail =
      (system.swap 0 index count.succ_pos index.isLt).tail.map Equation.real := by
  apply vector_ext
  intro row
  rw [Vector.get_map, get_tail_swap, get_tail_swap, Vector.get_map]

theorem solve_above_real (least : ℚ) (system : Vector (Equation ℚ unknowns sides) unknowns) :
    solveAbove (least : ℝ) (system.map Equation.real) =
      (solveAbove least system).map fun solution => solution.map realVector := by
  induction unknowns with
  | zero => simp [solveAbove]
  | succ unknowns induction =>
      have tiny : Scalar.abs (system.get (pivotIndex system)).real.lead ≤ (least : ℝ) ↔
          Scalar.abs (system.get (pivotIndex system)).lead ≤ least := by
        rw [lead_real]
        change |((_ : ℚ) : ℝ)| ≤ _ ↔ |_| ≤ least
        rw [← Rat.cast_abs, Rat.cast_le]
      simp only [solveAbove, pivot_index_real, Vector.get_map, others_real, tiny]
      split
      · rfl
      · have reduced : ((system.swap 0 (pivotIndex system) unknowns.succ_pos
              (pivotIndex system).isLt).tail.map Equation.real).map
                (system.get (pivotIndex system)).real.reduce =
            ((system.swap 0 (pivotIndex system) unknowns.succ_pos
              (pivotIndex system).isLt).tail.map
                (system.get (pivotIndex system)).reduce).map Equation.real := by
          rw [Vector.map_map, Vector.map_map]
          congr 1
          funext equation
          exact reduce_real ..
        rw [reduced, induction, Option.map_map, Option.map_map]
        congr 1
        funext solution
        simp only [Function.comp_apply, solve_lead_real, prepend_real]

theorem tolerance_real : ((tolerance : ℚ) : ℝ) = tolerance := by
  change (((1e-12 : ℚ)) : ℝ) = 1e-12
  norm_num

theorem solve_sides_real (system : Vector (Equation ℚ unknowns sides) unknowns) :
    solveSides (system.map Equation.real) =
      (solveSides system).map fun solution => solution.map realVector := by
  have entries : (system.map Equation.real).toList.flatMap (·.coefficients.toList) =
      (system.toList.flatMap (·.coefficients.toList)).map (fun value : ℚ => (value : ℝ)) := by
    rw [Vector.toList_map, List.flatMap_map, List.map_flatMap]
    apply List.flatMap_congr
    intro equation _
    exact Vector.toList_map
  unfold solveSides
  rw [entries, Scalar.greatest_abs_real, ← tolerance_real]
  simp only [Bool.or_eq_true, decide_eq_true_eq, beq_iff_eq, Rat.cast_eq_zero, ← Rat.cast_mul,
    solve_above_real]
  split
  · rfl
  · rfl

end Elimination

namespace Grid

open Elimination

variable {size : Nat}

def real (matrix : Grid ℚ size) : Grid ℝ size := matrix.map realVector

@[simp]
theorem entry_real (matrix : Grid ℚ size) (row column : Fin size) :
    matrix.real.entry row column = matrix.entry row column := by
  rw [real, entry, Vector.get_map, get_real_vector]
  rfl

theorem solve_real (matrix : Grid ℚ size) (constants : Vector ℚ size) :
    matrix.real.solve (realVector constants) = (matrix.solve constants).map realVector := by
  have rows : matrix.real.zipWith (fun row constant => (⟨row, #v[constant]⟩ : Equation ℝ size 1))
        (realVector constants) =
      (matrix.zipWith (fun row constant => (⟨row, #v[constant]⟩ : Equation ℚ size 1))
        constants).map Equation.real := by
    apply vector_ext
    intro row
    rw [get_zip_with, Vector.get_map, get_zip_with, get_real_vector, real, Vector.get_map]
    simp [Equation.real, realVector]
  unfold solve
  rw [rows, solve_sides_real, Option.map_map, Option.map_map]
  congr 1
  funext solution
  apply vector_ext
  intro unknown
  simp only [Function.comp_apply, Vector.get_map, get_real_vector]

theorem inverse_real (matrix : Grid ℚ size) : matrix.real.inverse = matrix.inverse.map real := by
  have rows : (Vector.ofFn fun row => (⟨matrix.real.get row, Vector.ofFn fun column =>
        if row = column then 1 else 0⟩ : Equation ℝ size size)) =
      (Vector.ofFn fun row => (⟨matrix.get row, Vector.ofFn fun column =>
        if row = column then 1 else 0⟩ : Equation ℚ size size)).map Equation.real := by
    apply vector_ext
    intro row
    rw [Vector.get_ofFn, Vector.get_map, Vector.get_ofFn, Equation.real, real, Vector.get_map]
    congr 1
    apply vector_ext
    intro column
    rw [Vector.get_ofFn, get_real_vector, Vector.get_ofFn]
    split
    · exact Rat.cast_one.symm
    · exact Rat.cast_zero.symm
  unfold inverse
  rw [rows, solve_sides_real]
  rfl

end Grid

end KifuRatings
