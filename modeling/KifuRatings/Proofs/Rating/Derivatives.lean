import KifuRatings.Proofs.Rating.Systems
import KifuRatings.Rating.Posterior

/-!
# The sums behind gradient and precision

Gradient and precision are collected share by share. With exact arithmetic they are sums over the
terms: each term counts with its slope or its curvature, and a player with the sum of the
coefficients that the term has for this player. So what a term does to a direction of strengths is
told by one number, how far the term's combination goes along with the direction.
-/

namespace KifuRatings

open Matrix

variable {size : Nat}

theorem sum_map_congr {ι : Type} {items : List ι} {left right : ι → ℝ}
    (same : ∀ item ∈ items, left item = right item) :
    (items.map left).sum = (items.map right).sum :=
  congrArg List.sum (List.map_congr_left same)

theorem sum_map_sum {ι κ : Type} [Fintype κ] (items : List ι) (value : ι → κ → ℝ) :
    (items.map fun item => ∑ index, value item index).sum =
      ∑ index, (items.map fun item => value item index).sum := by
  induction items with
  | nil => simp
  | cons item items induction => simp [induction, Finset.sum_add_distrib]

theorem sum_flat_map {ι : Type} (items : List ι) (shares : ι → List ℝ) :
    (items.flatMap shares).sum = (items.map fun item => (shares item).sum).sum := by
  rw [List.flatMap_def, List.sum_flatten, List.map_map]
  rfl

theorem get_set {α : Type} (vector : Vector α size) (changed index : Fin size) (value : α) :
    (vector.set changed value changed.isLt).get index =
      if changed = index then value else vector.get index := by
  rw [Vector.get_eq_getElem, Vector.getElem_set]
  simp only [Fin.val_inj]
  rfl

namespace Term

def coefficient (term : Term (Fin size) ℝ) (player : Fin size) : ℝ :=
  (term.combo.map fun (other, coefficient) => if other = player then coefficient else 0).sum

def along (term : Term (Fin size) ℝ) (direction : Fin size → ℝ) : ℝ :=
  ∑ player, term.coefficient player * direction player

theorem along_eq_dot (term : Term (Fin size) ℝ) (direction : Fin size → ℝ) :
    term.along direction = term.coefficient ⬝ᵥ direction := rfl

theorem sum_combo (term : Term (Fin size) ℝ) (value : Fin size → ℝ) :
    (term.combo.map fun (player, coefficient) => coefficient * value player).sum =
      term.along value := by
  unfold along coefficient
  simp only [← List.sum_map_mul_right, ← sum_map_sum]
  apply sum_map_congr
  intro share _
  simp [ite_mul, Finset.sum_ite_eq]

end Term

namespace Posterior

theorem accumulate_get (start : Vector ℝ size) (shares : List (Fin size × ℝ)) (player : Fin size) :
    (accumulate start shares).get player = start.get player +
      (shares.map fun (other, share) => if other = player then share else 0).sum := by
  induction shares generalizing start with
  | nil => simp [accumulate]
  | cons share shares induction =>
      obtain ⟨other, share⟩ := share
      have one : (start.set other (start.get other + share) other.isLt).get player =
          start.get player + if other = player then share else 0 := by
        rw [get_set]
        split
        · rename_i same
          rw [same]
        · rw [add_zero]
      rw [List.map_cons, List.sum_cons, ← add_assoc, ← one, ← induction]
      rfl

theorem accumulate_grid_entry (start : Grid ℝ size) (shares : List (Fin size × Fin size × ℝ))
    (row column : Fin size) :
    (accumulateGrid start shares).entry row column = start.entry row column +
      (shares.map fun (left, right, share) =>
        if left = row then if right = column then share else 0 else 0).sum := by
  induction shares generalizing start with
  | nil => simp [accumulateGrid]
  | cons share shares induction =>
      obtain ⟨left, right, share⟩ := share
      let changed := (start.get left).set right (start.entry left right + share) right.isLt
      have one : Grid.entry (start.set left changed left.isLt) row column =
          start.entry row column +
            if left = row then if right = column then share else 0 else 0 := by
        rw [Grid.entry, get_set]
        split
        · rename_i sameRow
          rw [get_set, ← sameRow]
          split
          · rename_i sameColumn
            rw [sameColumn]
          · rw [add_zero, Grid.entry]
        · rw [add_zero, Grid.entry]
      rw [List.map_cons, List.sum_cons, ← add_assoc, ← one, ← induction]
      rfl

variable (link : Link ℝ) (posterior : Posterior ℝ size) (strengths : Vector ℝ size)

theorem combination_eq (term : Term (Fin size) ℝ) :
    combination strengths term = term.along strengths.get + term.offset := by
  rw [← Term.sum_combo]
  unfold combination
  rw [Scalar.sum_exact]

theorem value_eq : posterior.value link strengths =
    (posterior.terms.map fun term => term.value link (combination strengths term)).sum :=
  Scalar.sum_exact _

theorem gradient_get (player : Fin size) :
    (posterior.gradient link strengths).get player =
      (posterior.terms.map fun term =>
        term.slope link (combination strengths term) * term.coefficient player).sum := by
  unfold gradient
  rw [accumulate_get, Vector.get_replicate, zero_add, List.map_flatMap, sum_flat_map]
  apply sum_map_congr
  intro term _
  rw [List.map_map, Term.coefficient, ← List.sum_map_mul_left]
  apply sum_map_congr
  intro share _
  simp

theorem hessian_entry (row column : Fin size) :
    (posterior.hessian link strengths).entry row column =
      (posterior.terms.map fun term => term.curvature link (combination strengths term) *
        term.coefficient row * term.coefficient column).sum := by
  unfold hessian
  have start :
      Grid.entry (Vector.replicate size (Vector.replicate size (0 : ℝ))) row column = 0 := by
    rw [Grid.entry, Vector.get_replicate, Vector.get_replicate]
  rw [accumulate_grid_entry, start, zero_add, List.map_flatMap, sum_flat_map]
  apply sum_map_congr
  intro term _
  have ofRow : term.coefficient row = (term.combo.map fun (other, coefficient) =>
      if other = row then coefficient else 0).sum := rfl
  rw [List.map_flatMap, sum_flat_map, mul_right_comm, ofRow, ← List.sum_map_mul_left]
  apply sum_map_congr
  intro left _
  rw [List.map_map, mul_assoc, mul_comm (term.coefficient column), ← mul_assoc, Term.coefficient,
    ← List.sum_map_mul_left]
  apply sum_map_congr
  intro right _
  simp only [Function.comp_apply]
  split
  · split
    · rfl
    · rw [mul_zero]
  · rw [mul_zero, zero_mul]

theorem precision_entry (row column : Fin size) :
    (posterior.precision link strengths).entry row column =
      (posterior.terms.map fun term => -term.curvature link (combination strengths term) *
        term.coefficient row * term.coefficient column).sum := by
  have negated : (posterior.precision link strengths).entry row column =
      -(posterior.hessian link strengths).entry row column := by
    rw [precision, Grid.entry, Vector.get_map, Vector.get_map]
    rfl
  rw [negated, hessian_entry, ← neg_one_mul, ← List.sum_map_mul_left]
  apply sum_map_congr
  intro term _
  ring

theorem precision_mul (direction : Fin size → ℝ) (row : Fin size) :
    ((posterior.precision link strengths).toMatrix *ᵥ direction) row =
      (posterior.terms.map fun term => -term.curvature link (combination strengths term) *
        term.along direction * term.coefficient row).sum := by
  have entries : ((posterior.precision link strengths).toMatrix *ᵥ direction) row =
      ∑ column, (posterior.precision link strengths).entry row column * direction column := rfl
  simp only [entries, precision_entry, ← List.sum_map_mul_right, ← sum_map_sum]
  apply sum_map_congr
  intro term _
  rw [Term.along, Finset.mul_sum, Finset.sum_mul]
  apply Finset.sum_congr rfl
  intro column _
  ring

theorem dot_precision (left right : Fin size → ℝ) :
    left ⬝ᵥ ((posterior.precision link strengths).toMatrix *ᵥ right) =
      (posterior.terms.map fun term => -term.curvature link (combination strengths term) *
        (term.along left * term.along right)).sum := by
  simp only [dotProduct, precision_mul, ← List.sum_map_mul_left, ← sum_map_sum]
  apply sum_map_congr
  intro term _
  rw [mul_comm (term.along left), ← mul_assoc]
  nth_rewrite 3 [Term.along]
  rw [Finset.mul_sum]
  apply Finset.sum_congr rfl
  intro player _
  ring

theorem dot_gradient (direction : Fin size → ℝ) :
    direction ⬝ᵥ (posterior.gradient link strengths).get =
      (posterior.terms.map fun term =>
        term.slope link (combination strengths term) * term.along direction).sum := by
  simp only [dotProduct, gradient_get, ← List.sum_map_mul_left, ← sum_map_sum]
  apply sum_map_congr
  intro term _
  rw [Term.along, Finset.mul_sum]
  apply Finset.sum_congr rfl
  intro player _
  ring

end Posterior

end KifuRatings
