import KifuRatings.Proofs.Text.SingleLine

/-!
# Line breaks on a single line

A line break inside a text becomes a space like any other blank character. If it is written as two
characters it becomes two.
-/

namespace KifuRatings.Text

def withReturns (text : List Char) : List Char :=
  text.flatMap fun character => if character = '\n' then ['\r', '\n'] else [character]

theorem with_returns_of_line {text : List Char} (oneLine : '\n' ∉ text) : withReturns text = text := by
  have unchanged : ∀ character ∈ text,
      (if character = '\n' then ['\r', '\n'] else [character]) = [character] := by
    intro character member
    exact if_neg (ne_of_mem_of_not_mem member oneLine)
  rw [withReturns, List.flatMap_congr unchanged, List.flatMap_singleton']

theorem length_with_returns (text : List Char) :
    (withReturns text).length = text.length + text.count '\n' := by
  induction text with
  | nil => rfl
  | cons character rest induction =>
      rw [withReturns, List.flatMap_cons, ← withReturns, List.length_append, induction]
      by_cases feed : character = '\n'
      · subst feed
        simp
        omega
      · simp [feed]
        omega

/-- It makes no difference to what is dropped at the start if every item is replaced by some that
are tested like it. -/
theorem drop_while_flat_map {Item : Type} {change : Item → List Item} {passes : Item → Bool}
    (alike : ∀ item, change item ≠ [] ∧ ∀ other ∈ change item, passes other = passes item)
    (items : List Item) :
    (items.flatMap change).dropWhile passes = (items.dropWhile passes).flatMap change := by
  induction items with
  | nil => rfl
  | cons item rest induction =>
      obtain ⟨notEmpty, same⟩ := alike item
      rw [List.flatMap_cons]
      cases passed : passes item with
      | true =>
          have allPassed : ∀ other ∈ change item, passes other = true :=
            fun other member => (same other member).trans passed
          rw [List.dropWhile_append_of_pos allPassed, induction, List.dropWhile_cons_of_pos passed]
      | false =>
          have kept : ¬ passes item = true := by simp [passed]
          rw [List.dropWhile_cons_of_neg kept, List.flatMap_cons]
          cases first : change item with
          | nil => exact absurd first notEmpty
          | cons other others =>
              have keptToo : ¬ passes other = true := by simp [same other (by simp [first]), passed]
              rw [List.cons_append, List.dropWhile_cons_of_neg keptToo]

theorem trim_flat_map {change : Char → List Char}
    (alike : ∀ character, change character ≠ [] ∧
      ∀ other ∈ change character, isBlank other = isBlank character) (text : List Char) :
    trim (text.flatMap change) = (trim text).flatMap change := by
  have alikeBackwards : ∀ character, (List.reverse ∘ change) character ≠ [] ∧
      ∀ other ∈ (List.reverse ∘ change) character, isBlank other = isBlank character := by
    simpa using alike
  rw [trim, trim, trimEnd, trimEnd, trimStart, drop_while_flat_map alike, List.reverse_flatMap,
    drop_while_flat_map alikeBackwards, List.reverse_flatMap, trimStart]
  simp [Function.comp_def]

theorem trim_flatten (text : List Char) : trim (flatten text) = flatten (trim text) := by
  rw [flatten, List.map_eq_flatMap, trim_flat_map, flatten, List.map_eq_flatMap]
  intro character
  simp only [List.mem_singleton, ne_eq, List.cons_ne_self, not_false_eq_true, forall_eq, true_and]
  split
  · exact ‹isBlank character = true›.symm
  · rfl

theorem trim_with_returns (text : List Char) : trim (withReturns text) = withReturns (trim text) := by
  rw [withReturns, trim_flat_map, withReturns]
  intro character
  split
  · subst character
    exact ⟨by simp, by simp; decide⟩
  · simp

/-- A text on a single line, in which each character that was left by trimming has its place. -/
def level (text : List Char) : String := String.ofList (flatten text)

theorem single_line_eq_level (text : String) : singleLine text = level (trim text.toList) := by
  rw [singleLine, trim_flatten, level]

theorem level_with_returns {text : List Char} :
    level (withReturns text) = level text ↔ '\n' ∉ text := by
  constructor
  · intro same feed
    have lengths := congrArg String.length same
    simp only [level, String.length_ofList, flatten, List.length_map, length_with_returns] at lengths
    have counted : 0 < text.count '\n' := List.count_pos_iff.mpr feed
    omega
  · intro oneLine
    rw [with_returns_of_line oneLine]

end KifuRatings.Text
