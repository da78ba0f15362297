import KifuRatings.Proofs.Rating.Systems

/-!
# Systems that are accepted

A matrix that takes every direction with it by some weight is not flat in any direction, so it is
refused only if this weight is next to nothing beside its largest entry.
-/

namespace KifuRatings.Grid

open Matrix

variable {size : Nat}

/-- Every direction counts with at least the given weight. -/
def Steep (matrix : Grid ℝ size) (least : ℝ) : Prop :=
  ∀ direction : Fin size → ℝ,
    least * ∑ index, direction index ^ 2 ≤ direction ⬝ᵥ (matrix.toMatrix *ᵥ direction)

variable {matrix : Grid ℝ size} {least : ℝ}

theorem dot_le_of_flat {bound : ℝ} {direction : Fin size → ℝ} (flat : matrix.Flat bound direction) :
    direction ⬝ᵥ (matrix.toMatrix *ᵥ direction) ≤ bound * ∑ index, |direction index| := by
  rw [dotProduct, Finset.mul_sum]
  apply Finset.sum_le_sum
  intro row _
  calc
    direction row * (matrix.toMatrix *ᵥ direction) row ≤
        |direction row| * |(matrix.toMatrix *ᵥ direction) row| := by
      rw [← abs_mul]
      exact le_abs_self _
    _ ≤ |direction row| * bound := mul_le_mul_of_nonneg_left (flat row) (abs_nonneg _)
    _ = bound * |direction row| := mul_comm _ _

theorem steep_le_of_flat (steep : matrix.Steep least) (nonneg : 0 ≤ least) {bound : ℝ}
    {direction : Fin size → ℝ} (one : ∃ unknown, direction unknown = 1)
    (flat : matrix.Flat bound direction) : least ≤ size * bound := by
  obtain ⟨unknown, isOne⟩ := one
  let total := ∑ index, |direction index|
  have long : 1 ≤ total := by
    calc
      1 = |direction unknown| := by rw [isOne, abs_one]
      _ ≤ total := Finset.single_le_sum (fun index _ => abs_nonneg (direction index))
        (Finset.mem_univ unknown)
  have spread : total ^ 2 ≤ size * ∑ index, direction index ^ 2 := by
    have squares :=
      sq_sum_le_card_mul_sum_sq (s := Finset.univ) (f := fun index => |direction index|)
    simp only [sq_abs, Finset.card_univ, Fintype.card_fin] at squares
    exact squares
  have scaled : least * total * total ≤ size * bound * total := by
    calc
      least * total * total = least * total ^ 2 := by ring
      _ ≤ least * (size * ∑ index, direction index ^ 2) := mul_le_mul_of_nonneg_left spread nonneg
      _ = size * (least * ∑ index, direction index ^ 2) := by ring
      _ ≤ size * (bound * total) :=
        mul_le_mul_of_nonneg_left ((steep direction).trans (dot_le_of_flat flat))
          (Nat.cast_nonneg size)
      _ = size * bound * total := by ring
  calc
    least ≤ least * total := le_mul_of_one_le_right nonneg long
    _ ≤ size * bound := le_of_mul_le_mul_right scaled (one_pos.trans_le long)

theorem not_flat_of_steep (steep : matrix.Steep least) (firm : size * matrix.threshold < least)
    {direction : Fin size → ℝ} (one : ∃ unknown, direction unknown = 1) :
    ¬matrix.Flat matrix.threshold direction := by
  intro flat
  have nonneg : 0 ≤ least :=
    (mul_nonneg (Nat.cast_nonneg size) matrix.threshold_nonneg).trans firm.le
  exact firm.not_ge (steep_le_of_flat steep nonneg one flat)

theorem solve_of_steep (some : 0 < size) (steep : matrix.Steep least)
    (firm : size * matrix.threshold < least) (constants : Vector ℝ size) :
    matrix.solve constants ≠ none := by
  intro refused
  obtain ⟨direction, one, flat⟩ := solve_flat some refused
  exact not_flat_of_steep steep firm one flat

theorem inverse_of_steep (some : 0 < size) (steep : matrix.Steep least)
    (firm : size * matrix.threshold < least) : matrix.inverse ≠ none := by
  intro refused
  obtain ⟨direction, one, flat⟩ := inverse_flat some refused
  exact not_flat_of_steep steep firm one flat

end KifuRatings.Grid
