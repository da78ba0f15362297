import KifuRatings.Proofs.Crosstable.Totals
import Mathlib.Algebra.BigOperators.Group.List.Lemmas
import Mathlib.Data.List.Dedup

/-!
# What a table says about its games

The table of a list of games has an entry for each pairing that occurs in it, and the entry counts
the games of this pairing that either side won or neither did. All that is asked of a table is
told by the list in this way, so the order of the games is no matter. Counters wrap around, but not
below 2^32 games.
-/

namespace KifuRatings

def Outcome.pairing (outcome : Outcome) : Pairing := ⟨outcome.firstPlayer, outcome.secondPlayer⟩

namespace Pairing

def ended (pairing : Pairing) (winner : Winner) (games : List Outcome) : Nat :=
  games.countP fun outcome => outcome.pairing = pairing ∧ outcome.winner = winner

def results (pairing : Pairing) (games : List Outcome) : Tally :=
  ⟨.ofNat (pairing.ended .first games), .ofNat (pairing.ended .second games),
    .ofNat (pairing.ended .neither games)⟩

theorem ended_le (pairing : Pairing) (winner : Winner) (games : List Outcome) :
    pairing.ended winner games ≤ games.length :=
  List.countP_le_length

theorem ended_exact (pairing : Pairing) (winner : Winner) {games : List Outcome}
    (few : games.length < 2 ^ 32) :
    (UInt32.ofNat (pairing.ended winner games)).toNat = pairing.ended winner games :=
  UInt32.toNat_ofNat_of_lt' ((pairing.ended_le winner games).trans_lt few)

theorem results_cons (pairing : Pairing) (outcome : Outcome) (games : List Outcome) :
    pairing.results (outcome :: games) =
      if outcome.pairing = pairing then
        (pairing.results games).add (Tally.ofWinner outcome.winner)
      else pairing.results games := by
  unfold results ended
  by_cases same : outcome.pairing = pairing
  · rw [if_pos same]
    cases result : outcome.winner <;> simp [same, result, Tally.add, Tally.ofWinner]
  · rw [if_neg same]
    simp [same]

theorem results_of_unplayed {pairing : Pairing} {games : List Outcome}
    (unplayed : pairing ∉ games.map Outcome.pairing) : pairing.results games = Tally.zero := by
  have noGame : ∀ winner, pairing.ended winner games = 0 := by
    intro winner
    rw [ended, List.countP_eq_zero]
    intro outcome member counted
    have same : outcome.pairing = pairing := (of_decide_eq_true counted).1
    exact unplayed (same ▸ List.mem_map_of_mem member)
  rw [results, noGame, noGame, noGame]
  rfl

theorem total_results (pairing : Pairing) (games : List Outcome) :
    (pairing.results games).total =
      UInt32.ofNat ((games.map Outcome.pairing).count pairing) := by
  induction games with
  | nil => rfl
  | cons outcome games induction =>
      rw [results_cons, List.map_cons, List.count_cons, UInt32.ofNat_add, ← induction]
      by_cases same : outcome.pairing = pairing
      · have one : (Tally.ofWinner outcome.winner).total = 1 := by
          cases outcome.winner <;> rfl
        simp [same, one]
      · simp [same]

end Pairing

namespace Crosstable

theorem of_games_cons (outcome : Outcome) (games : List Outcome) :
    ofGames (outcome :: games) = (ofGames games).count outcome := by
  rw [of_games_perm (List.perm_append_singleton outcome games).symm, ofGames, List.foldl_append]
  rfl

theorem entry_of_games (games : List Outcome) (pairing : Pairing) :
    (ofGames games).tallyAt pairing =
      if pairing ∈ games.map Outcome.pairing then some (pairing.results games) else none := by
  induction games with
  | nil => rfl
  | cons outcome games induction =>
      have counted : ∀ table : Crosstable,
          table.count outcome = table.add outcome.pairing (Tally.ofWinner outcome.winner) :=
        fun _ => rfl
      rw [of_games_cons, counted, entry_add, induction, Pairing.results_cons]
      by_cases same : outcome.pairing = pairing
      · by_cases played : pairing ∈ games.map Outcome.pairing
        · simp [same, played]
        · simp [same, played, Pairing.results_of_unplayed played, Tally.zero_add]
      · simp [same, Ne.symm same]

theorem entries_of_games_perm (games : List Outcome) :
    (ofGames games).entries.Perm
      ((games.map Outcome.pairing).dedup.map fun pairing => (pairing, pairing.results games)) := by
  have once : (ofGames games).entries.Nodup :=
    (ofGames games).entries_distinct.imp fun apart same => apart (congrArg Prod.fst same)
  have onceListed : ((games.map Outcome.pairing).dedup.map
      fun pairing => (pairing, pairing.results games)).Nodup :=
    (List.nodup_dedup _).map fun _ _ same => congrArg Prod.fst same
  refine (List.perm_ext_iff_of_nodup once onceListed).mpr fun (pairing, tally) => ?_
  rw [mem_entries, entry_of_games]
  constructor
  · intro entry
    split at entry
    · rename_i played
      rw [← Option.some.inj entry]
      exact List.mem_map_of_mem (List.mem_dedup.mpr played)
    · simp at entry
  · intro listed
    obtain ⟨other, member, same⟩ := List.mem_map.mp listed
    obtain ⟨rfl, rfl⟩ := Prod.mk.inj same
    rw [if_pos (List.mem_dedup.mp member)]

/-- What a table is asked for is answered as the list of games would answer it. -/
structure Histogram (table : Crosstable) (games : List Outcome) : Prop where
  tally : ∀ first second, table.tally first second = Pairing.results ⟨first, second⟩ games
  contains : ∀ first second, table.contains first second = true ↔
    ∃ outcome ∈ games, outcome.firstPlayer = first ∧ outcome.secondPlayer = second
  players : ∀ name, name ∈ table.players ↔
    ∃ outcome ∈ games, outcome.firstPlayer = name ∨ outcome.secondPlayer = name
  playersOnce : table.players.Nodup
  size : table.size = (games.map Outcome.pairing).dedup.length
  tallyExact : games.length < 2 ^ 32 → ∀ first second,
    (table.tally first second).wins.toNat = Pairing.ended ⟨first, second⟩ .first games ∧
    (table.tally first second).losses.toNat = Pairing.ended ⟨first, second⟩ .second games ∧
    (table.tally first second).draws.toNat = Pairing.ended ⟨first, second⟩ .neither games
  gamesExact : games.length < 2 ^ 32 → table.games.toNat = games.length
  games : table.games = UInt32.ofNat games.length

theorem played_iff {games : List Outcome} {first second : String} :
    (⟨first, second⟩ : Pairing) ∈ games.map Outcome.pairing ↔
      ∃ outcome ∈ games, outcome.firstPlayer = first ∧ outcome.secondPlayer = second := by
  simp [Outcome.pairing]

theorem contains_iff_entry {table : Crosstable} {first second : String} :
    table.contains first second = true ↔ (table.tallyAt ⟨first, second⟩).isSome = true := by
  rw [contains, tallyAt, Std.ExtTreeMap.contains_eq_isSome_getElem?]

theorem mem_players_iff {table : Crosstable} {name : String} :
    name ∈ table.players ↔
      ∃ entry ∈ table.entries, entry.1.first = name ∨ entry.1.second = name := by
  rw [players, mem_sorted_names]
  simp [eq_comm]

theorem players_nodup (table : Crosstable) : table.players.Nodup := by
  apply (pairwise_sorted_names _).imp
  intro left right before same
  subst same
  simp at before

theorem tally_of_games (games : List Outcome) (first second : String) :
    (ofGames games).tally first second = Pairing.results ⟨first, second⟩ games := by
  have entry := entry_of_games games ⟨first, second⟩
  rw [Crosstable.tally, ← tallyAt, entry]
  split
  · rfl
  · rename_i unplayed
    exact (Pairing.results_of_unplayed unplayed).symm

theorem games_of_games (games : List Outcome) :
    (ofGames games).games = UInt32.ofNat games.length := by
  rw [games_eq_sum_of_entries, ((entries_of_games_perm games).map _).sum_eq, List.map_map]
  have totals : ((fun entry : Pairing × Tally => entry.2.total) ∘
      fun pairing : Pairing => (pairing, pairing.results games)) =
        fun pairing => UInt32.ofNat ((games.map Outcome.pairing).count pairing) := by
    funext pairing
    exact pairing.total_results games
  rw [totals, sum_of_nat, List.sum_map_count_dedup_eq_length, List.length_map]

theorem histogram_of_games (games : List Outcome) : Histogram (ofGames games) games where
  tally := tally_of_games games
  contains first second := by
    rw [contains_iff_entry, entry_of_games, ← played_iff]
    split <;> simp [*]
  players name := by
    rw [mem_players_iff]
    simp only [(entries_of_games_perm games).mem_iff]
    simp [Outcome.pairing]
  playersOnce := players_nodup _
  size := by
    have sameLength := (entries_of_games_perm games).length_eq
    rw [List.length_map, entries, Std.ExtTreeMap.length_toList] at sameLength
    exact sameLength
  tallyExact few first second := by
    rw [tally_of_games]
    exact ⟨Pairing.ended_exact _ .first few, Pairing.ended_exact _ .second few,
      Pairing.ended_exact _ .neither few⟩
  gamesExact few := by rw [games_of_games, UInt32.toNat_ofNat_of_lt' few]
  games := games_of_games games

end Crosstable

end KifuRatings
