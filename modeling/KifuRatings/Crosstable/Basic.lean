import Std.Data.ExtTreeMap
import KifuRatings.Names
import KifuRatings.Outcome

/-!
# Crosstables

A crosstable counts results for every ordered pairing: the games `a` began against `b` are
kept apart from those `b` began against `a`. Names alone tell players apart. A table is a
finite map, so two tables are equal iff they hold the same pairings with the same counts;
entries come in the order of the names' characters. All counters have 32 bits and wrap around.
-/

namespace KifuRatings

/-- Results between two players, from the first player's side. -/
structure Tally where
  wins : UInt32
  losses : UInt32
  draws : UInt32
deriving DecidableEq, Repr

namespace Tally

def zero : Tally := ⟨0, 0, 0⟩

def add (left right : Tally) : Tally :=
  ⟨left.wins + right.wins, left.losses + right.losses, left.draws + right.draws⟩

def total (tally : Tally) : UInt32 := tally.wins + tally.losses + tally.draws

def ofWinner : Winner → Tally
  | .first => ⟨1, 0, 0⟩
  | .second => ⟨0, 1, 0⟩
  | .neither => ⟨0, 0, 1⟩

end Tally

/-- Who moved first and who second. -/
structure Pairing where
  first : String
  second : String
deriving DecidableEq, Repr

namespace Pairing

def order (left right : Pairing) : Ordering :=
  (compare left.first right.first).then (compare left.second right.second)

instance : Std.TransCmp order where
  eq_swap {left right} := by
    simp only [order, Ordering.swap_then]
    rw [@Std.OrientedCmp.eq_swap String compare _ left.first,
      @Std.OrientedCmp.eq_swap String compare _ left.second]
  isLE_trans {left middle right} leftMiddle middleRight := by
    rw [order, Ordering.isLE_then_iff_or] at leftMiddle middleRight ⊢
    rcases leftMiddle with first | ⟨first, second⟩ <;>
      rcases middleRight with first' | ⟨first', second'⟩
    · exact .inl (Std.TransCmp.lt_trans first first')
    · exact .inl (Std.TransCmp.lt_of_lt_of_eq first first')
    · exact .inl (Std.TransCmp.lt_of_eq_of_lt first first')
    · exact .inr ⟨Std.TransCmp.eq_trans first first', Std.TransCmp.isLE_trans second second'⟩

instance : Std.LawfulEqCmp order where
  compare_self {pairing} := by simp [order]
  eq_of_compare {left right} same := by
    simp only [order, Ordering.then_eq_eq, Std.LawfulEqCmp.compare_eq_iff_eq] at same
    cases left
    cases right
    simp_all

end Pairing

structure Crosstable where
  tallies : Std.ExtTreeMap Pairing Tally Pairing.order
deriving DecidableEq

namespace Crosstable

def empty : Crosstable := ⟨∅⟩

/-- A pairing that was never played reads as zero. -/
def tally (table : Crosstable) (first second : String) : Tally :=
  table.tallies[(⟨first, second⟩ : Pairing)]?.getD Tally.zero

def contains (table : Crosstable) (first second : String) : Bool :=
  table.tallies.contains ⟨first, second⟩

/-- Adds to one pairing's tally and gives it an entry if it has none. -/
def add (table : Crosstable) (pairing : Pairing) (tally : Tally) : Crosstable :=
  ⟨table.tallies.alter pairing fun old => some ((old.getD Tally.zero).add tally)⟩

def count (table : Crosstable) (outcome : Outcome) : Crosstable :=
  table.add ⟨outcome.firstPlayer, outcome.secondPlayer⟩ (Tally.ofWinner outcome.winner)

def entries (table : Crosstable) : List (Pairing × Tally) := table.tallies.toList

def size (table : Crosstable) : Nat := table.tallies.size

def isEmpty (table : Crosstable) : Bool := table.tallies.isEmpty

def merge (left right : Crosstable) : Crosstable :=
  right.entries.foldl (fun table (pairing, tally) => table.add pairing tally) left

def games (table : Crosstable) : UInt32 :=
  table.entries.foldl (fun games (_, tally) => games + tally.total) 0

/-- Games between two players, whoever began. -/
def meetings (table : Crosstable) (left right : String) : UInt32 :=
  if left = right then (table.tally left left).total
  else (table.tally left right).total + (table.tally right left).total

def players (table : Crosstable) : List String :=
  sortedNames (table.entries.flatMap fun (pairing, _) => [pairing.first, pairing.second])

end Crosstable

end KifuRatings
