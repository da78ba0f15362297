import KifuRatings.Proofs.Rating.Curves
import KifuRatings.Proofs.Rating.Derivatives

/-!
# The gradient and its matrix as derivatives

If one player's strength changes and the others are held, the combination of a term goes along a
line. Its slope is all that the term multiplies this strength by, in however many mentions. By the
chain rule the shares that are collected for the gradient are the partial derivatives of the terms'
values, and those for the matrix the partial derivatives of the gradient.
-/

namespace KifuRatings

theorem set_same {α : Type} {size : Nat} (vector : Vector α size) (index : Fin size) :
    vector.set index (vector.get index) index.isLt = vector := by
  apply vector_ext
  intro other
  rw [get_set]
  split
  · rename_i same
    rw [same]
  · rfl

theorem sum_derivative {ι : Type} (items : List ι) {value : ι → ℝ → ℝ} {slope : ι → ℝ} {x : ℝ}
    (each : ∀ item ∈ items, HasDerivAt (value item) (slope item) x) :
    HasDerivAt (fun y => (items.map fun item => value item y).sum) (items.map slope).sum x := by
  induction items with
  | nil => exact hasDerivAt_const x 0
  | cons item items induction =>
      simp only [List.map_cons, List.sum_cons]
      exact (each item List.mem_cons_self).add
        (induction fun other listed => each other (List.mem_cons_of_mem item listed))

namespace Posterior

variable {size : Nat}

/-- A function of all strengths as a function of one player's strength, the others being held. -/
def alone (value : Vector ℝ size → ℝ) (player : Fin size) (strengths : Vector ℝ size)
    (strength : ℝ) : ℝ :=
  value (strengths.set player strength player.isLt)

/-- Zero where the function has no partial derivative. -/
noncomputable def partialDerivative (value : Vector ℝ size → ℝ) (player : Fin size)
    (strengths : Vector ℝ size) : ℝ :=
  deriv (alone value player strengths) (strengths.get player)

theorem combination_alone (term : Term (Fin size) ℝ) (player : Fin size)
    (strengths : Vector ℝ size) (strength : ℝ) :
    alone (combination · term) player strengths strength =
      combination strengths term + term.coefficient player * (strength - strengths.get player) := by
  have moved : (strengths.set player strength player.isLt).get =
      strengths.get + Pi.single player (strength - strengths.get player) := by
    funext other
    rw [get_set, Pi.add_apply, Pi.single_apply]
    split
    · rename_i same
      rw [if_pos same.symm, same, add_sub_cancel]
    · rename_i different
      rw [if_neg (Ne.symm different), add_zero]
  rw [alone, combination_eq, combination_eq, moved]
  simp only [Term.along_eq_dot, dotProduct_add, dotProduct_single]
  ring

theorem combination_derivative (term : Term (Fin size) ℝ) (player : Fin size)
    (strengths : Vector ℝ size) :
    HasDerivAt (alone (combination · term) player strengths) (term.coefficient player)
      (strengths.get player) := by
  rw [funext (combination_alone term player strengths)]
  have line := (((hasDerivAt_id (strengths.get player)).sub_const (strengths.get player)).const_mul
    (term.coefficient player)).const_add (combination strengths term)
  rwa [mul_one] at line

theorem composed_derivative {value : ℝ → ℝ} {slope : ℝ} (term : Term (Fin size) ℝ)
    (player : Fin size) {strengths : Vector ℝ size}
    (outer : HasDerivAt value slope (combination strengths term)) :
    HasDerivAt (alone (fun strengths => value (combination strengths term)) player strengths)
      (slope * term.coefficient player) (strengths.get player) := by
  have here : alone (combination · term) player strengths (strengths.get player) =
      combination strengths term := by
    rw [alone, set_same]
  rw [← here] at outer
  exact outer.comp _ (combination_derivative term player strengths)

variable (posterior : Posterior ℝ size) (strengths : Vector ℝ size)

theorem value_derivative (player : Fin size) :
    HasDerivAt (alone (posterior.value Link.logistic) player strengths)
      ((posterior.gradient Link.logistic strengths).get player) (strengths.get player) := by
  rw [gradient_get, funext (posterior.value_eq Link.logistic)]
  apply sum_derivative
  intro term _
  exact composed_derivative term player (term.value_derivative _)

theorem gradient_derivative (row column : Fin size) :
    HasDerivAt
      (alone (fun strengths => (posterior.gradient Link.logistic strengths).get row) column
        strengths)
      ((posterior.hessian Link.logistic strengths).entry row column) (strengths.get column) := by
  simp only [hessian_entry, gradient_get]
  apply sum_derivative
  intro term _
  rw [mul_right_comm]
  exact (composed_derivative term column (term.slope_derivative _)).mul_const _

theorem partial_derivative_of_value (player : Fin size) :
    partialDerivative (posterior.value Link.logistic) player =
      fun strengths => (posterior.gradient Link.logistic strengths).get player :=
  funext fun strengths => (posterior.value_derivative strengths player).deriv

/-- Whatever the terms are, the log posterior has all partial derivatives, and the gradient holds
them; so do its partial derivatives, and the matrix holds these. The curves behind them are the
logistic curve, whichever branch it is taken from, and softplus. -/
theorem gradient_and_hessian_are_derivatives (terms : List (Term String ℝ)) :
    let posterior := ofTerms terms
    let value := posterior.value Link.logistic
    (∀ strengths player,
      HasDerivAt (alone value player strengths)
        ((posterior.gradient Link.logistic strengths).get player) (strengths.get player)) ∧
    (∀ strengths row column,
      HasDerivAt (alone (partialDerivative value row) column strengths)
        ((posterior.hessian Link.logistic strengths).entry row column) (strengths.get column)) ∧
    (∀ x, (Link.logistic : Link ℝ).sigmoid x = 1 / (1 + Real.exp (-x)) ∧
      (Link.logistic : Link ℝ).sigmoid x = Real.exp x / (1 + Real.exp x)) ∧
    ∀ z, (Link.logistic : Link ℝ).softplus z = Real.log (1 + Real.exp z) := by
  refine ⟨?_, ?_, ?_, Logistic.softplus_eq⟩
  · intro strengths player
    exact value_derivative _ strengths player
  · intro strengths row column
    rw [partial_derivative_of_value]
    exact gradient_derivative _ strengths row column
  · intro x
    rw [Logistic.sigmoid_eq]
    constructor
    · rw [Real.sigmoid_def, one_div]
    · exact Logistic.sigmoid_eq_exp x

end Posterior

end KifuRatings
