import KifuRatings.Crosstable.ScoreMatrix
import KifuRatings.Proofs.Crosstable.Histogram
import KifuRatings.Proofs.Crosstable.Totals
import Mathlib

/-!
# What the score matrix counts

The two scores of a meeting add up to its games, and all scores together to the games of the table
without those of players against themselves. A score is half of what the pairing that began gives
and what the pairing that answered gives, so both sums come down to sums over pairings. For all of
this the table has to have fewer than 2^32 games; beyond, drawn games may be lost.
-/

namespace KifuRatings

def Score.games (score : Score) : ℚ := score.halves / 2

def Crosstable.gamesAlone (table : Crosstable) : Nat :=
  (table.entries.map fun entry =>
    if entry.1.first = entry.1.second then entry.2.played else 0).sum

theorem Crosstable.players_of_pairing {table : Crosstable} {pairing : Pairing}
    (member : pairing ∈ table.pairings) :
    pairing.first ∈ table.players ∧ pairing.second ∈ table.players := by
  obtain ⟨tally, entry⟩ := mem_pairings.mp member
  have listed : ∀ name, pairing.first = name ∨ pairing.second = name → name ∈ table.players :=
    fun name either => mem_players_iff.mpr ⟨_, mem_entries.mpr entry, either⟩
  exact ⟨listed _ (.inl rfl), listed _ (.inr rfl)⟩

namespace ScoreMatrix

variable {table : Crosstable}

theorem player_injective : Function.Injective (ofTable table).players.get :=
  List.nodup_iff_injective_get.mp table.players_nodup

theorem mem_players_of_table {name : String} :
    name ∈ table.players ↔ ∃ index, (ofTable table).players.get index = name := by
  rw [List.mem_iff_get]
  rfl

theorem cell_of_players (table : Crosstable) {size : Nat} (players : Vector String size)
    (row column : Fin size) :
    (ofPlayers table players).cell row column =
      if row = column then Score.zero
      else scoreOf table (players.get row) (players.get column) := by
  change ((Vector.ofFn fun row => Vector.ofFn fun column => if row = column then Score.zero
    else scoreOf table (players.get row) (players.get column)).get row).get column = _
  rw [Vector.get_ofFn, Vector.get_ofFn]

theorem cell_of_table (row column : Fin (ofTable table).size) :
    (ofTable table).cell row column =
      if row = column then Score.zero
      else scoreOf table ((ofTable table).players.get row)
        ((ofTable table).players.get column) :=
  cell_of_players table _ row column

@[simp]
theorem index_of_player (index : Fin (ofTable table).size) :
    (ofTable table).index? ((ofTable table).players.get index) = some index := by
  rw [index?, Vector.finIdxOf?_eq_some_iff]
  refine ⟨rfl, fun other before same => ?_⟩
  exact before.ne (player_injective same)

theorem score_of_players (row column : Fin (ofTable table).size) :
    (ofTable table).score? ((ofTable table).players.get row)
      ((ofTable table).players.get column) = some ((ofTable table).cell row column) := by
  simp [score?]

/-- The games of two players that their scores see: drawn ones are added up as counters. -/
def shared (table : Crosstable) (left right : String) : Nat :=
  (table.tally left right).wins.toNat + (table.tally right left).losses.toNat
    + ((table.tally right left).wins.toNat + (table.tally left right).losses.toNat)
    + ((table.tally left right).draws + (table.tally right left).draws).toNat

theorem shared_comm (table : Crosstable) (left right : String) :
    shared table left right = shared table right left := by
  rw [shared, shared, UInt32.add_comm (table.tally left right).draws]
  omega

/-- In a meeting of two players every game is a whole one to both together. -/
theorem score_both (table : Crosstable) (left right : String) :
    (scoreOf table left right).halves + (scoreOf table right left).halves =
      2 * shared table left right := by
  simp only [scoreOf, shared, UInt32.add_comm (table.tally right left).draws]
  omega

section Fits

variable (fits : table.played < 2 ^ 32) {left right : String} (different : left ≠ right)

include fits different

theorem pair_fits :
    (table.tally left right).played + (table.tally right left).played < 2 ^ 32 := by
  have apart : (⟨left, right⟩ : Pairing) ≠ ⟨right, left⟩ :=
    fun same => different (Pairing.mk.inj same).1
  exact (table.played_pair_le apart).trans_lt fits

theorem draws_exact :
    ((table.tally left right).draws + (table.tally right left).draws).toNat =
      (table.tally left right).draws.toNat + (table.tally right left).draws.toNat := by
  have few := pair_fits fits different
  simp only [Tally.played] at few
  rw [UInt32.toNat_add, Nat.mod_eq_of_lt (by omega)]

theorem meetings_exact : (table.meetings left right).toNat = shared table left right := by
  have few := pair_fits fits different
  have leftFew : (table.tally left right).played < 2 ^ 32 := by omega
  have rightFew : (table.tally right left).played < 2 ^ 32 := by omega
  rw [Crosstable.meetings, if_neg different, UInt32.toNat_add, Tally.total_exact leftFew,
    Tally.total_exact rightFew, Nat.mod_eq_of_lt few, shared, draws_exact fits different]
  simp only [Tally.played]
  omega

end Fits

/-! ## All scores together -/

def allPairings (table : Crosstable) : Finset Pairing :=
  Finset.univ.image fun both : Fin (ofTable table).size × Fin (ofTable table).size =>
    ⟨(ofTable table).players.get both.1, (ofTable table).players.get both.2⟩

theorem pairings_subset_all (table : Crosstable) : table.pairings ⊆ allPairings table := by
  intro pairing member
  obtain ⟨firstListed, secondListed⟩ := Crosstable.players_of_pairing member
  obtain ⟨row, first⟩ := mem_players_of_table.mp firstListed
  obtain ⟨column, second⟩ := mem_players_of_table.mp secondListed
  refine Finset.mem_image.mpr ⟨(row, column), Finset.mem_univ _, ?_⟩
  rw [first, second]

theorem sum_all_pairings (table : Crosstable) (value : Pairing → Nat) :
    ∑ pairing ∈ allPairings table, value pairing =
      ∑ row, ∑ column, value
        ⟨(ofTable table).players.get row, (ofTable table).players.get column⟩ := by
  rw [allPairings, Finset.sum_image, Fintype.sum_prod_type]
  intro left _ right _ same
  obtain ⟨first, second⟩ := Pairing.mk.inj same
  exact Prod.ext (player_injective first) (player_injective second)

theorem played_of_players (table : Crosstable) :
    table.played = ∑ row, ∑ column, (table.tally ((ofTable table).players.get row)
      ((ofTable table).players.get column)).played := by
  rw [Crosstable.played_eq_sum (pairings_subset_all table), sum_all_pairings]
  rfl

theorem games_alone_of_players (table : Crosstable) :
    table.gamesAlone = ∑ row, ∑ column, if row = column then
      (table.tally ((ofTable table).players.get row)
        ((ofTable table).players.get column)).played else 0 := by
  have sum := Crosstable.sum_entries
    (fun pairing tally => if pairing.first = pairing.second then tally.played else 0)
    (fun _ => ite_self 0) (pairings_subset_all table)
  rw [Crosstable.gamesAlone, sum, sum_all_pairings]
  refine Finset.sum_congr rfl fun row _ => Finset.sum_congr rfl fun column _ => ?_
  have sameName : (ofTable table).players.get row = (ofTable table).players.get column ↔
      row = column := player_injective.eq_iff
  simp only [sameName]
  rfl

/-- What a pairing gives to the player who began and to the one who answered, in halves. -/
def beganHalves (tally : Tally) : Nat := 2 * tally.wins.toNat + tally.draws.toNat

def answeredHalves (tally : Tally) : Nat := 2 * tally.losses.toNat + tally.draws.toNat

theorem score_halves (fits : table.played < 2 ^ 32) {player opponent : String}
    (different : player ≠ opponent) :
    (scoreOf table player opponent).halves =
      beganHalves (table.tally player opponent) + answeredHalves (table.tally opponent player) := by
  simp only [scoreOf, beganHalves, answeredHalves, draws_exact fits different]
  omega

theorem sum_halves (fits : table.played < 2 ^ 32) :
    (∑ row, ∑ column, ((ofTable table).cell row column).halves) + 2 * table.gamesAlone =
      2 * table.played := by
  let tallyAt (row column : Fin (ofTable table).size) : Tally :=
    table.tally ((ofTable table).players.get row) ((ofTable table).players.get column)
  have cellHalves : ∀ row column, ((ofTable table).cell row column).halves =
      (if row = column then 0 else beganHalves (tallyAt row column)) +
        if column = row then 0 else answeredHalves (tallyAt column row) := by
    intro row column
    rw [cell_of_table]
    by_cases same : row = column
    · simp [same, Score.zero]
    · have names : (ofTable table).players.get row ≠ (ofTable table).players.get column :=
        fun alike => same (player_injective alike)
      rw [if_neg same, if_neg same, if_neg (Ne.symm same), score_halves fits names]
  have bothSides : ∀ row column, (if row = column then 0 else beganHalves (tallyAt row column)) +
      (if row = column then 0 else answeredHalves (tallyAt row column)) +
        2 * (if row = column then (tallyAt row column).played else 0) =
          2 * (tallyAt row column).played := by
    intro row column
    by_cases same : row = column
    · simp [same]
    · simp only [if_neg same, beganHalves, answeredHalves, Tally.played]
      omega
  -- What the answering side gets stands in the mirrored cell, so rows and columns change places.
  have mirrored : (∑ row, ∑ column, if column = row then 0 else answeredHalves (tallyAt column row)) =
      ∑ row, ∑ column, if row = column then 0 else answeredHalves (tallyAt row column) :=
    Finset.sum_comm
  simp only [cellHalves, Finset.sum_add_distrib]
  rw [mirrored, played_of_players, games_alone_of_players]
  simp only [Finset.mul_sum, ← Finset.sum_add_distrib]
  exact Finset.sum_congr rfl fun row _ => Finset.sum_congr rfl fun column _ =>
    bothSides row column

/-- Every game of the table is in the matrix once, unless it was played alone. The sums are those of
a table in which no counter wraps around. -/
structure CountsGames (matrix : ScoreMatrix) (table : Crosstable) : Prop where
  diagonal : ∀ index, (matrix.cell index index).games = 0
  halves : ∀ row column, ∃ count : ℕ, (matrix.cell row column).games = count * (1 / 2)
  meetings : table.played < 2 ^ 32 → ∀ row column, row ≠ column →
    (matrix.cell row column).games + (matrix.cell column row).games =
      (table.meetings (matrix.players.get row) (matrix.players.get column)).toNat
  byName : ∀ row column,
    matrix.score? (matrix.players.get row) (matrix.players.get column) =
      some (matrix.cell row column)
  total : table.played < 2 ^ 32 →
    ∑ row, ∑ column, (matrix.cell row column).games = table.games.toNat - table.gamesAlone

/-- The matrix of a table neither loses games nor invents any. -/
theorem matrix_counts_games (table : Crosstable) : (ofTable table).CountsGames table where
  diagonal index := by
    rw [cell_of_table, if_pos rfl]
    simp [Score.games, Score.zero]
  halves row column := ⟨((ofTable table).cell row column).halves, div_eq_mul_one_div _ _⟩
  meetings fits row column different := by
    have names : (ofTable table).players.get row ≠ (ofTable table).players.get column :=
      fun same => different (player_injective same)
    have both := score_both table ((ofTable table).players.get row)
      ((ofTable table).players.get column)
    rw [← meetings_exact fits names] at both
    rw [cell_of_table, cell_of_table, if_neg different, if_neg different.symm, Score.games,
      Score.games, ← add_div, div_eq_iff two_ne_zero, mul_comm]
    exact_mod_cast both
  byName := score_of_players
  total fits := by
    have sum := sum_halves fits
    have games : table.games.toNat = table.played := by
      rw [Crosstable.games_eq, UInt32.toNat_ofNat_of_lt' fits]
    have inGames : 2 * ∑ row, ∑ column, ((ofTable table).cell row column).games =
        ((∑ row, ∑ column, ((ofTable table).cell row column).halves : ℕ) : ℚ) := by
      push_cast [Finset.mul_sum]
      refine Finset.sum_congr rfl fun row _ => Finset.sum_congr rfl fun column _ => ?_
      exact mul_div_cancel₀ _ two_ne_zero
    have sumInGames : ((∑ row, ∑ column, ((ofTable table).cell row column).halves : ℕ) : ℚ) +
        2 * table.gamesAlone = 2 * table.played := by exact_mod_cast sum
    rw [games]
    linarith

end ScoreMatrix

end KifuRatings
