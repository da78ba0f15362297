import KifuRatings.Proofs.Crosstable.Merge
import Mathlib

/-!
# Totals of a table

A sum over the entries of a table is a sum over pairings. Any set of pairings will do that holds
those of the entries, since a pairing without an entry reads as zero. So totals can be taken over
the players on both sides, and they add up where tables are merged.
-/

namespace KifuRatings

namespace Tally

/-- The games of a tally, added up without a limit. -/
def played (tally : Tally) : Nat := tally.wins.toNat + tally.losses.toNat + tally.draws.toNat

theorem total_eq (tally : Tally) : tally.total = UInt32.ofNat tally.played := by
  simp [total, played]

theorem total_exact {tally : Tally} (fits : tally.played < 2 ^ 32) :
    tally.total.toNat = tally.played := by
  rw [total_eq, UInt32.toNat_ofNat_of_lt' fits]

end Tally

theorem sum_of_nat {ι : Type} (value : ι → Nat) (items : List ι) :
    (items.map fun item => UInt32.ofNat (value item)).sum =
      UInt32.ofNat (items.map value).sum := by
  induction items with
  | nil => rfl
  | cons item items induction =>
      rw [List.map_cons, List.sum_cons, induction, List.map_cons, List.sum_cons, UInt32.ofNat_add]

namespace Crosstable

variable {table : Crosstable}

/-- The games of a table, added up without a limit. -/
def played (table : Crosstable) : Nat := (table.entries.map fun entry => entry.2.played).sum

theorem games_eq_sum_of_entries (table : Crosstable) :
    table.games = (table.entries.map fun entry => entry.2.total).sum := by
  rw [games, List.sum_eq_foldl, List.foldl_map]

theorem games_eq (table : Crosstable) : table.games = UInt32.ofNat table.played := by
  rw [games_eq_sum_of_entries, played, ← sum_of_nat]
  simp only [Tally.total_eq]

def tallyOf (table : Crosstable) (pairing : Pairing) : Tally :=
  table.tally pairing.first pairing.second

theorem tally_of_entry (pairing : Pairing) :
    table.tallyOf pairing = (table.tallyAt pairing).getD Tally.zero := rfl

theorem tally_merge (left right : Crosstable) (first second : String) :
    (left.merge right).tally first second =
      (left.tally first second).add (right.tally first second) := by
  change (left.merge right).tallyOf ⟨first, second⟩ =
    (left.tallyOf ⟨first, second⟩).add (right.tallyOf ⟨first, second⟩)
  rw [tally_of_entry, tally_of_entry, tally_of_entry, entry_merge]
  cases left.tallyAt ⟨first, second⟩ <;> cases right.tallyAt ⟨first, second⟩ <;>
    simp [Tally.add, Tally.zero]

def pairings (table : Crosstable) : Finset Pairing := (table.entries.map (·.1)).toFinset

theorem mem_pairings {pairing : Pairing} :
    pairing ∈ table.pairings ↔ ∃ tally, table.tallyAt pairing = some tally := by
  simp only [pairings, List.mem_toFinset, List.mem_map]
  constructor
  · intro listed
    obtain ⟨⟨other, tally⟩, entry, rfl⟩ := listed
    exact ⟨tally, mem_entries.mp entry⟩
  · intro held
    obtain ⟨tally, entry⟩ := held
    exact ⟨(pairing, tally), mem_entries.mpr entry, rfl⟩

theorem tally_of_unpaired {pairing : Pairing} (absent : pairing ∉ table.pairings) :
    table.tallyOf pairing = Tally.zero := by
  rw [tally_of_entry]
  cases entry : table.tallyAt pairing with
  | none => rfl
  | some tally => exact absurd (mem_pairings.mpr ⟨tally, entry⟩) absent

theorem sum_entries {M : Type} [AddCommMonoid M] (value : Pairing → Tally → M)
    (nothing : ∀ pairing, value pairing .zero = 0)
    {among : Finset Pairing} (all : table.pairings ⊆ among) :
    (table.entries.map fun entry => value entry.1 entry.2).sum =
      ∑ pairing ∈ among, value pairing (table.tallyOf pairing) := by
  have once : (table.entries.map (·.1)).Nodup :=
    List.pairwise_map.mpr table.entries_distinct
  have read : (table.entries.map fun entry => value entry.1 entry.2) =
      (table.entries.map (·.1)).map fun pairing => value pairing (table.tallyOf pairing) := by
    rw [List.map_map]
    apply List.map_congr_left
    intro entry member
    simp only [Function.comp_apply, tally_of_entry, mem_entries.mp member, Option.getD_some]
  rw [read, ← List.sum_toFinset _ once]
  apply Finset.sum_subset all
  intro pairing _ absent
  rw [tally_of_unpaired absent, nothing]

theorem games_eq_sum {among : Finset Pairing} (all : table.pairings ⊆ among) :
    table.games = ∑ pairing ∈ among, (table.tallyOf pairing).total := by
  rw [← sum_entries (fun _ tally => tally.total) (fun _ => rfl) all, games_eq_sum_of_entries]

theorem played_eq_sum {among : Finset Pairing} (all : table.pairings ⊆ among) :
    table.played = ∑ pairing ∈ among, (table.tallyOf pairing).played := by
  rw [← sum_entries (fun _ tally => tally.played) (fun _ => rfl) all, played]

/-- The games of two pairings are among those of the table. -/
theorem played_pair_le (table : Crosstable) {left right : Pairing} (different : left ≠ right) :
    (table.tallyOf left).played + (table.tallyOf right).played ≤ table.played := by
  calc
    (table.tallyOf left).played + (table.tallyOf right).played =
        ∑ pairing ∈ {left, right}, (table.tallyOf pairing).played := by
      rw [Finset.sum_pair different]
    _ ≤ ∑ pairing ∈ table.pairings ∪ {left, right}, (table.tallyOf pairing).played :=
      Finset.sum_le_sum_of_subset Finset.subset_union_right
    _ = table.played := (played_eq_sum Finset.subset_union_left).symm

theorem pairings_merge_subset (left right : Crosstable) :
    (left.merge right).pairings ⊆ left.pairings ∪ right.pairings := by
  intro pairing member
  obtain ⟨tally, entry⟩ := mem_pairings.mp member
  rw [entry_merge] at entry
  rw [Finset.mem_union, mem_pairings, mem_pairings]
  cases leftEntry : left.tallyAt pairing with
  | some held => exact .inl ⟨held, rfl⟩
  | none =>
      rw [leftEntry, Option.merge_none_left] at entry
      exact .inr ⟨tally, entry⟩

theorem games_merge (left right : Crosstable) :
    (left.merge right).games = left.games + right.games := by
  have one : ∀ pairing, ((left.merge right).tallyOf pairing).total =
      (left.tallyOf pairing).total + (right.tallyOf pairing).total := by
    intro pairing
    rw [tallyOf, tally_merge, Tally.total_add]
    rfl
  have inLeft : left.pairings ⊆ left.pairings ∪ right.pairings := Finset.subset_union_left
  have inRight : right.pairings ⊆ left.pairings ∪ right.pairings := Finset.subset_union_right
  rw [games_eq_sum (pairings_merge_subset left right), games_eq_sum inLeft, games_eq_sum inRight,
    ← Finset.sum_add_distrib]
  exact Finset.sum_congr rfl fun pairing _ => one pairing

end Crosstable

end KifuRatings
