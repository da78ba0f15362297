import KifuRatings.Proofs.Crosstable.Histogram
import KifuRatings.Proofs.Text.ByteOrder

/-!
# Entries in whatever order

A table is a finite map, so its entries may be met in any order. Sorting them brings back the one
order in which they are listed, and the names on their sides are the players; adding them one by one
gives the table back. The order of names is the order of their bytes.
-/

namespace KifuRatings

def Pairing.ByteBefore (left right : Pairing) : Prop :=
  Utf8.encode left.first < Utf8.encode right.first ∨
    left.first = right.first ∧ Utf8.encode left.second < Utf8.encode right.second

theorem Pairing.byte_before_of_order {left right : Pairing} (before : order left right = .lt) :
    left.ByteBefore right := by
  rw [order, Ordering.then_eq_lt, Std.LawfulEqCmp.compare_eq_iff_eq] at before
  rcases before with first | ⟨same, second⟩
  · exact .inl (Utf8.encode_lt first)
  · exact .inr ⟨same, Utf8.encode_lt second⟩

namespace Crosstable

variable {table : Crosstable} {enumeration : List (Pairing × Tally)}

structure Enumerates (enumeration : List (Pairing × Tally)) (table : Crosstable) : Prop where
  once : (enumeration.map (·.1)).Nodup
  entries : ∀ pairing tally,
    (pairing, tally) ∈ enumeration ↔ table.tallyAt pairing = some tally

def sides (enumeration : List (Pairing × Tally)) : List String :=
  enumeration.flatMap fun (pairing, _) => [pairing.first, pairing.second]

def inOrder (enumeration : List (Pairing × Tally)) : List (Pairing × Tally) :=
  enumeration.mergeSort fun left right => (Pairing.order left.1 right.1).isLE

def ofEntries (additions : List (Pairing × Tally)) : Crosstable :=
  additions.foldl (fun table (pairing, tally) => table.add pairing tally) empty

theorem Enumerates.perm (enumerates : Enumerates enumeration table) :
    enumeration.Perm table.entries := by
  have onceListed : table.entries.Nodup :=
    table.entries_distinct.imp fun apart same => apart (congrArg Prod.fst same)
  rw [List.perm_ext_iff_of_nodup (enumerates.once.of_map _) onceListed]
  intro entry
  exact (enumerates.entries entry.1 entry.2).trans mem_entries.symm

theorem entries_ordered (table : Crosstable) :
    table.entries.Pairwise fun left right => Pairing.order left.1 right.1 = .lt :=
  Std.ExtTreeMap.ordered_keys_toList

theorem enumerates_entries (table : Crosstable) : Enumerates table.entries table where
  once := List.pairwise_map.mpr table.entries_distinct
  entries _ _ := mem_entries

theorem in_order_of_enumerates (enumerates : Enumerates enumeration table) :
    inOrder enumeration = table.entries := by
  have sorted : (inOrder enumeration).Pairwise fun left right =>
      (Pairing.order left.1 right.1).isLE = true :=
    List.pairwise_mergeSort (fun _ _ _ => Std.TransCmp.isLE_trans)
      (fun left right => by
        have swapped : Pairing.order left.1 right.1 = (Pairing.order right.1 left.1).swap :=
          Std.OrientedCmp.eq_swap
        rw [swapped]
        cases Pairing.order right.1 left.1 <;> rfl) enumeration
  have listed : table.entries.Pairwise fun left right =>
      (Pairing.order left.1 right.1).isLE = true :=
    table.entries_ordered.imp fun before => by rw [before]; rfl
  have same : (inOrder enumeration).Perm table.entries :=
    (List.mergeSort_perm _ _).trans enumerates.perm
  refine List.Perm.eq_of_pairwise ?_ sorted listed same
  intro left right leftMember rightMember notAfter notBefore
  -- Entries that are equal to the order have one pairing, and a pairing has one entry.
  have samePairing : left.1 = right.1 :=
    Std.LawfulEqCmp.eq_of_compare (Std.OrientedCmp.isLE_antisymm notAfter notBefore)
  have leftEntry := mem_entries.mp (same.subset leftMember)
  have rightEntry := mem_entries.mp rightMember
  rw [samePairing, rightEntry] at leftEntry
  exact Prod.ext samePairing (Option.some.inj leftEntry).symm

theorem players_of_enumerates (enumerates : Enumerates enumeration table) :
    sortedNames (sides enumeration) = table.players :=
  sorted_names_congr fun _ => (enumerates.perm.flatMap_right _).mem_iff

theorem of_entries_of_enumerates (enumerates : Enumerates enumeration table) :
    ofEntries enumeration = table :=
  (merge_entries_perm empty table enumerates.perm).trans (empty_merge table)

theorem of_entries_perm {additions others : List (Pairing × Tally)} (same : additions.Perm others) :
    ofEntries additions = ofEntries others :=
  have : RightCommutative fun (table : Crosstable) (entry : Pairing × Tally) =>
      table.add entry.1 entry.2 := ⟨add_right_comm⟩
  same.foldl_eq empty

theorem players_ascend (table : Crosstable) :
    table.players.Pairwise fun left right => Utf8.encode left < Utf8.encode right :=
  (pairwise_sorted_names _).imp Utf8.encode_lt

theorem entries_ascend (table : Crosstable) :
    table.entries.Pairwise fun left right => left.1.ByteBefore right.1 :=
  table.entries_ordered.imp Pairing.byte_before_of_order

end Crosstable

end KifuRatings
