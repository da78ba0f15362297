import KifuRatings.Crosstable.Basic
import Mathlib.Algebra.BigOperators.Group.List.Basic
import Mathlib.Data.List.Induction

/-!
# Adding up crosstables

Merging adds tables up pairing by pairing, so tables with merging are a commutative monoid
and the table of any number of parts does not depend on their order. A table is read through
`tallyAt`; that a pairing has an entry counts, not only the tally it reads as.
-/

namespace KifuRatings

namespace Tally

theorem add_comm (left right : Tally) : left.add right = right.add left := by
  simp [add, UInt32.add_comm]

theorem add_assoc (first second third : Tally) :
    (first.add second).add third = first.add (second.add third) := by
  simp [add, UInt32.add_assoc]

theorem zero_add (tally : Tally) : zero.add tally = tally := by
  simp [add, zero]

@[simp]
theorem total_add (left right : Tally) : (left.add right).total = left.total + right.total := by
  simp only [add, total]
  ac_rfl

instance : Std.Commutative add := ⟨add_comm⟩

instance : Std.Associative add := ⟨add_assoc⟩

end Tally

namespace Crosstable

def tallyAt (table : Crosstable) (pairing : Pairing) : Option Tally := table.tallies[pairing]?

theorem ext_entry {left right : Crosstable}
    (same : ∀ pairing, left.tallyAt pairing = right.tallyAt pairing) : left = right := by
  cases left
  cases right
  exact congrArg Crosstable.mk (Std.ExtTreeMap.ext_getElem? fun {pairing} => same pairing)

@[simp]
theorem entry_empty (pairing : Pairing) : empty.tallyAt pairing = none :=
  Std.ExtTreeMap.getElem?_empty

theorem entry_add (table : Crosstable) (pairing other : Pairing) (tally : Tally) :
    (table.add pairing tally).tallyAt other =
      (table.tallyAt other).merge Tally.add (if pairing = other then some tally else none) := by
  unfold tallyAt add
  rw [Std.ExtTreeMap.getElem?_alter]
  by_cases same : pairing = other
  · subst same
    cases table.tallies[pairing]? <;> simp [Tally.zero_add]
  · have different : Pairing.order pairing other ≠ .eq := by
      rwa [Ne, Std.LawfulEqCmp.compare_eq_iff_eq]
    simp [same, different]

/-- A fold over entries of different pairings adds to each pairing what the entries hold. -/
theorem entry_fold (entries : List (Pairing × Tally)) (table : Crosstable) (pairing : Pairing)
    (distinct : entries.Pairwise fun left right => left.1 ≠ right.1) :
    (entries.foldl (fun table (pairing, tally) => table.add pairing tally) table).tallyAt pairing =
      (table.tallyAt pairing).merge Tally.add ((entries.find? (·.1 = pairing)).map (·.2)) := by
  induction entries generalizing table with
  | nil => simp
  | cons entry entries induction =>
      obtain ⟨first, others⟩ := List.pairwise_cons.mp distinct
      rw [List.foldl_cons, induction _ others, entry_add]
      by_cases same : entry.1 = pairing
      · have absent : entries.find? (·.1 = pairing) = none := by
          rw [List.find?_eq_none]
          intro other member
          simpa [same] using (first other member).symm
        simp [same, absent]
      · simp [same]

@[simp]
theorem mem_entries {table : Crosstable} {pairing : Pairing} {tally : Tally} :
    (pairing, tally) ∈ table.entries ↔ table.tallyAt pairing = some tally :=
  Std.ExtTreeMap.mem_toList_iff_getElem?_eq_some

theorem entries_distinct (table : Crosstable) :
    table.entries.Pairwise fun left right => left.1 ≠ right.1 := by
  apply Std.ExtTreeMap.distinct_keys_toList.imp
  intro left right different same
  exact different (by rw [same]; exact Std.ReflCmp.compare_self)

theorem find_entries (table : Crosstable) (pairing : Pairing) :
    (table.entries.find? (·.1 = pairing)).map (·.2) = table.tallyAt pairing := by
  cases found : table.entries.find? (·.1 = pairing) with
  | none =>
      cases held : table.tallyAt pairing with
      | none => rfl
      | some tally =>
          have absent := List.find?_eq_none.mp found _ (mem_entries.mpr held)
          simp at absent
  | some entry =>
      have same : entry.1 = pairing := by simpa using List.find?_some found
      have member : (entry.1, entry.2) ∈ table.entries := List.mem_of_find?_eq_some found
      rw [← same]
      exact (mem_entries.mp member).symm

@[simp]
theorem entry_merge (left right : Crosstable) (pairing : Pairing) :
    (left.merge right).tallyAt pairing =
      (left.tallyAt pairing).merge Tally.add (right.tallyAt pairing) := by
  rw [merge, entry_fold _ _ _ right.entries_distinct, find_entries]

theorem merge_comm (left right : Crosstable) : left.merge right = right.merge left := by
  apply ext_entry
  intro pairing
  rw [entry_merge, entry_merge]
  exact Std.Commutative.comm (left.tallyAt pairing) (right.tallyAt pairing)

theorem merge_assoc (first second third : Crosstable) :
    (first.merge second).merge third = first.merge (second.merge third) := by
  apply ext_entry
  intro pairing
  simp only [entry_merge]
  exact Std.Associative.assoc (first.tallyAt pairing) (second.tallyAt pairing) (third.tallyAt pairing)

@[simp]
theorem empty_merge (table : Crosstable) : empty.merge table = table := by
  apply ext_entry
  intro pairing
  simp

instance : Zero Crosstable := ⟨empty⟩

instance : Add Crosstable := ⟨merge⟩

/-- Tables are added up by merging them. -/
instance : AddCommMonoid Crosstable where
  add_comm := merge_comm
  add_assoc := merge_assoc
  zero_add := empty_merge
  add_zero table := (merge_comm table empty).trans (empty_merge table)
  nsmul := nsmulRec

theorem add_merge (left right : Crosstable) (pairing : Pairing) (tally : Tally) :
    (left.merge right).add pairing tally = left.merge (right.add pairing tally) := by
  apply ext_entry
  intro other
  rw [entry_add, entry_merge, entry_merge, entry_add]
  exact Std.Associative.assoc (left.tallyAt other) (right.tallyAt other) _

def ofGames (games : List Outcome) : Crosstable := games.foldl count empty

theorem count_games (games : List Outcome) (table : Crosstable) :
    games.foldl count table = table + ofGames games := by
  induction games using List.reverseRecOn with
  | nil => exact (add_zero table).symm
  | append_singleton games outcome induction =>
      rw [ofGames, List.foldl_append, List.foldl_append, induction, List.foldl_cons,
        List.foldl_nil, List.foldl_cons, List.foldl_nil]
      exact add_merge table (ofGames games) _ _

theorem of_games_append (earlier later : List Outcome) :
    ofGames (earlier ++ later) = ofGames earlier + ofGames later := by
  rw [ofGames, List.foldl_append, count_games]
  rfl

theorem of_games_flat_map {Item : Type} (games : Item → List Outcome) (items : List Item) :
    ofGames (items.flatMap games) = (items.map fun item => ofGames (games item)).sum := by
  induction items with
  | nil => rfl
  | cons item items induction =>
      rw [List.flatMap_cons, of_games_append, induction, List.map_cons, List.sum_cons]

theorem of_games_perm {games others : List Outcome} (same : games.Perm others) :
    ofGames games = ofGames others := by
  have oneByOne : ∀ list : List Outcome,
      ofGames list = (list.map fun outcome => ofGames [outcome]).sum := by
    intro list
    rw [← of_games_flat_map, List.flatMap_singleton']
  rw [oneByOne games, oneByOne others]
  exact (same.map _).sum_eq

theorem add_right_comm (table : Crosstable) (left right : Pairing × Tally) :
    (table.add left.1 left.2).add right.1 right.2 =
      (table.add right.1 right.2).add left.1 left.2 := by
  apply ext_entry
  intro pairing
  rw [entry_add, entry_add, entry_add, entry_add]
  ac_rfl

theorem merge_entries_perm (left right : Crosstable) {entries : List (Pairing × Tally)}
    (same : entries.Perm right.entries) :
    entries.foldl (fun table (pairing, tally) => table.add pairing tally) left =
      left.merge right :=
  have : RightCommutative fun (table : Crosstable) (entry : Pairing × Tally) =>
      table.add entry.1 entry.2 := ⟨add_right_comm⟩
  same.foldl_eq left

end Crosstable

end KifuRatings
