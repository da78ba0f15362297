/-!
# Pieces between separators

No piece into which a list is split holds a separator.
-/

namespace KifuRatings.Text

theorem no_separator_in_piece {Item : Type} {separates : Item → Bool} {items piece : List Item}
    (member : piece ∈ items.splitOnP separates) : ∀ item ∈ piece, separates item = false := by
  induction items generalizing piece with
  | nil =>
      rw [List.splitOnP_nil, List.mem_singleton] at member
      simp [member]
  | cons first rest induction =>
      rw [List.splitOnP_cons_eq_if_modifyHead] at member
      split at member
      · rcases List.mem_cons.mp member with rfl | later
        · simp
        · exact induction later
      · rename_i passes
        obtain ⟨next, others, split⟩ := List.exists_cons_of_ne_nil
          (List.splitOnP_ne_nil separates rest)
        rw [split, List.modifyHead_cons] at member
        rcases List.mem_cons.mp member with rfl | later
        · rw [List.forall_mem_cons]
          exact ⟨by simpa using passes, induction (by simp [split])⟩
        · exact induction (by simp [split, later])

end KifuRatings.Text
