import Mathlib
import KifuRatings.Rating.Scalar

/-!
# Exact arithmetic

The real numbers as a type to compute ratings over: nothing is rounded and any two numbers can be
compared. Sums, greatest magnitudes and choices of a greatest key are then what their names say.
-/

namespace KifuRatings

noncomputable instance : Analytic ℝ where
  decidableLT := inferInstance
  decidableLE := inferInstance
  ofNat count := count
  abs value := |value|
  greater := max
  order := compare
  exp := Real.exp
  log1p value := Real.log (1 + value)
  sqrt := Real.sqrt

namespace Scalar

@[simp]
theorem sum_exact (values : List ℝ) : sum values = values.sum := by
  rw [List.sum_eq_foldl]
  rfl

theorem greatest_abs_append_one (values : List ℝ) (last : ℝ) :
    greatestAbs (values ++ [last]) = max (greatestAbs values) |last| := by
  unfold greatestAbs
  rw [List.foldl_append]
  rfl

theorem abs_le_greatest {values : List ℝ} {value : ℝ} (member : value ∈ values) :
    |value| ≤ greatestAbs values := by
  induction values using List.reverseRecOn with
  | nil => simp at member
  | append_singleton values last induction =>
      rw [greatest_abs_append_one, le_max_iff]
      rcases List.mem_append.mp member with before | now
      · exact .inl (induction before)
      · exact .inr (List.mem_singleton.mp now ▸ le_refl _)

theorem greatest_abs_le {values : List ℝ} {bound : ℝ} (nonneg : 0 ≤ bound)
    (bounded : ∀ value ∈ values, |value| ≤ bound) : greatestAbs values ≤ bound := by
  induction values using List.reverseRecOn with
  | nil => exact nonneg
  | append_singleton values last induction =>
      rw [greatest_abs_append_one]
      exact max_le (induction fun value member => bounded value (by simp [member]))
        (bounded last (by simp))

theorem greatest_abs_nonneg (values : List ℝ) : 0 ≤ greatestAbs values := by
  induction values using List.reverseRecOn with
  | nil => exact le_refl (0 : ℝ)
  | append_singleton values last induction =>
      rw [greatest_abs_append_one]
      exact induction.trans (le_max_left _ _)

noncomputable def better {ι : Type} (key : ι → ℝ) (best candidate : ι) : ι :=
  if order (key best) (key candidate) = .gt then best else candidate

theorem key_le_better {ι : Type} (key : ι → ℝ) (best candidate : ι) :
    key best ≤ key (better key best candidate) ∧
      key candidate ≤ key (better key best candidate) := by
  unfold better
  split
  · rename_i above
    exact ⟨le_refl _, (compare_gt_iff_gt.mp above).le⟩
  · rename_i notAbove
    exact ⟨not_lt.mp fun below => notAbove (compare_gt_iff_gt.mpr below), le_refl _⟩

theorem key_le_foldl_better {ι : Type} (key : ι → ℝ) (candidates : List ι) (first : ι) :
    ∀ candidate ∈ first :: candidates,
      key candidate ≤ key (candidates.foldl (better key) first) := by
  induction candidates generalizing first with
  | nil => simp
  | cons next candidates induction =>
      obtain ⟨keepsFirst, keepsNext⟩ := key_le_better key first next
      have best := induction (better key first next)
      intro candidate member
      rw [List.mem_cons, List.mem_cons] at member
      rcases member with rfl | rfl | later
      · exact keepsFirst.trans (best _ (by simp))
      · exact keepsNext.trans (best _ (by simp))
      · exact best candidate (by simp [later])

theorem foldl_better_mem {ι : Type} (key : ι → ℝ) (candidates : List ι) (first : ι) :
    candidates.foldl (better key) first ∈ first :: candidates := by
  induction candidates generalizing first with
  | nil => simp
  | cons next candidates induction =>
      rcases List.mem_cons.mp (induction (better key first next)) with same | later
      · rw [List.foldl_cons, same]
        unfold better
        split
        · exact List.mem_cons_self
        · exact List.mem_cons_of_mem _ List.mem_cons_self
      · exact List.mem_cons_of_mem _ (List.mem_cons_of_mem _ later)

theorem last_greatest_mem {ι : Type} (key : ι → ℝ) (default : ι) {candidates : List ι}
    (some : candidates ≠ []) : lastGreatest key default candidates ∈ candidates := by
  cases candidates with
  | nil => exact absurd rfl some
  | cons first candidates => exact foldl_better_mem key candidates first

theorem key_le_last_greatest {ι : Type} (key : ι → ℝ) (default : ι) {candidates : List ι}
    {candidate : ι} (member : candidate ∈ candidates) :
    key candidate ≤ key (lastGreatest key default candidates) := by
  cases candidates with
  | nil => simp at member
  | cons first candidates => exact key_le_foldl_better key candidates first candidate member

end Scalar

end KifuRatings
