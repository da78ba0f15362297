import Std.Data.ExtTreeSet

/-!
# Names in order

Players are listed by the characters of their names, each once. The list depends only on
which names occur: not on their order and not on how often they do.
-/

namespace KifuRatings

def sortedNames (names : List String) : List String :=
  (Std.ExtTreeSet.ofList names compare).toList

@[simp]
theorem mem_sorted_names {name : String} {names : List String} :
    name ∈ sortedNames names ↔ name ∈ names := by
  rw [sortedNames, Std.ExtTreeSet.mem_toList, Std.ExtTreeSet.mem_ofList, List.contains_iff_mem]

theorem pairwise_sorted_names (names : List String) :
    (sortedNames names).Pairwise fun left right => compare left right = .lt :=
  Std.ExtTreeSet.ordered_toList

theorem sorted_names_congr {names others : List String}
    (same : ∀ name, name ∈ names ↔ name ∈ others) : sortedNames names = sortedNames others := by
  unfold sortedNames
  congr 1
  apply Std.ExtTreeSet.ext_mem
  intro name
  rw [Std.ExtTreeSet.mem_ofList, Std.ExtTreeSet.mem_ofList, List.contains_iff_mem,
    List.contains_iff_mem]
  exact same name

end KifuRatings
