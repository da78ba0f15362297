import KifuRatings.Crosstable.Layout
import KifuRatings.Proofs.Crosstable.Scores
import KifuRatings.Rating.Estimate

/-!
# Colours do not matter to scores

Who began a game is kept in a table but not in its score matrix. A table in which some games are
told from the other side has other entries, and yet the same players in the same order and the
same scores; so nothing that is made of the matrix can tell the two apart. Scores add up where
tables are merged, although the players of both then have other numbers, unless a counter wraps
around.
-/

namespace KifuRatings

def Tally.turned (tally : Tally) : Tally := ⟨tally.losses, tally.wins, tally.draws⟩

/-- A tally is the sum of two others, and no counter has wrapped around. -/
structure Tally.IsSum (whole left right : Tally) : Prop where
  wins : whole.wins.toNat = left.wins.toNat + right.wins.toNat
  losses : whole.losses.toNat = left.losses.toNat + right.losses.toNat
  draws : whole.draws.toNat = left.draws.toNat + right.draws.toNat

def Winner.turned : Winner → Winner
  | .first => .second
  | .second => .first
  | .neither => .neither

def Pairing.turned (pairing : Pairing) : Pairing := ⟨pairing.second, pairing.first⟩

def Outcome.turned (outcome : Outcome) : Outcome where
  winner := outcome.winner.turned
  firstPlayer := outcome.secondPlayer
  secondPlayer := outcome.firstPlayer
  handicap := outcome.handicap
  komi := outcome.komi

namespace Crosstable

def NoEmptyEntry (table : Crosstable) : Prop :=
  ∀ pairing tally, table.tallyAt pairing = some tally → tally ≠ Tally.zero

/-- Another table tells some games of a table from the other side, of each pairing those in
`turned`. What is left of a pairing stays as it is, and a pairing without games has no entry. -/
structure Recolours (turned : Pairing → Tally) (table other : Crosstable) : Prop where
  games : ∀ pairing, ∃ kept : Tally, (table.tallyOf pairing).IsSum kept (turned pairing) ∧
    (other.tallyOf pairing).IsSum kept (turned pairing.turned).turned
  noEmptyEntry : other.NoEmptyEntry

variable {table other : Crosstable} {turned : Pairing → Tally}

theorem scores_of_recoloured (recolours : Recolours turned table other)
    (player opponent : String) :
    ScoreMatrix.scoreOf other player opponent = ScoreMatrix.scoreOf table player opponent := by
  obtain ⟨kept, before, after⟩ := recolours.games ⟨player, opponent⟩
  obtain ⟨keptToo, beforeToo, afterToo⟩ := recolours.games ⟨opponent, player⟩
  simp only [tallyOf, Pairing.turned] at before after beforeToo afterToo
  simp only [ScoreMatrix.scoreOf, UInt32.toNat_add, before.wins, before.draws, beforeToo.losses,
    beforeToo.draws, after.wins, after.draws, afterToo.losses, afterToo.draws, Tally.turned,
    Score.mk.injEq]
  omega

theorem meetings_of_recoloured (recolours : Recolours turned table other)
    (player opponent : String) :
    (other.tally player opponent).played + (other.tally opponent player).played =
      (table.tally player opponent).played + (table.tally opponent player).played := by
  obtain ⟨kept, before, after⟩ := recolours.games ⟨player, opponent⟩
  obtain ⟨keptToo, beforeToo, afterToo⟩ := recolours.games ⟨opponent, player⟩
  simp only [tallyOf, Pairing.turned] at before after beforeToo afterToo
  simp only [Tally.played, before.wins, before.losses, before.draws, beforeToo.wins,
    beforeToo.losses, beforeToo.draws, after.wins, after.losses, after.draws, afterToo.wins,
    afterToo.losses, afterToo.draws, Tally.turned]
  omega

theorem played_pos_of_ne_zero {tally : Tally} (notZero : tally ≠ Tally.zero) :
    0 < tally.played := by
  rw [Nat.pos_iff_ne_zero]
  intro nothing
  apply notZero
  obtain ⟨wins, losses, draws⟩ := tally
  simp only [Tally.played] at nothing
  simp only [Tally.zero, Tally.mk.injEq, ← UInt32.toNat_inj, UInt32.toNat_zero]
  omega

theorem entry_of_played (pairing : Pairing) (played : 0 < (table.tallyOf pairing).played) :
    (pairing, table.tallyOf pairing) ∈ table.entries := by
  rw [mem_entries]
  rw [tally_of_entry] at played ⊢
  cases entry : table.tallyAt pairing with
  | some tally => rfl
  | none =>
      rw [entry] at played
      exact absurd played (lt_irrefl 0)

theorem mem_players_iff_played (noEmptyEntry : table.NoEmptyEntry) (name : String) :
    name ∈ table.players ↔
      ∃ opponent,
        0 < (table.tally name opponent).played + (table.tally opponent name).played := by
  rw [mem_players_iff]
  constructor
  · intro listed
    obtain ⟨⟨⟨first, second⟩, tally⟩, entry, either⟩ := listed
    have held := mem_entries.mp entry
    have played := played_pos_of_ne_zero (noEmptyEntry _ _ held)
    have read : table.tally first second = tally := by
      change table.tallyOf ⟨first, second⟩ = tally
      rw [tally_of_entry, held, Option.getD_some]
    rcases either with rfl | rfl
    · exact ⟨second, by rw [read]; omega⟩
    · exact ⟨first, by rw [read]; omega⟩
  · intro played
    obtain ⟨opponent, positive⟩ := played
    rcases Nat.add_pos_iff_pos_or_pos.mp positive with began | answered
    · exact ⟨_, entry_of_played ⟨name, opponent⟩ began, .inl rfl⟩
    · exact ⟨_, entry_of_played ⟨opponent, name⟩ answered, .inr rfl⟩

theorem players_of_recoloured (noEmptyEntry : table.NoEmptyEntry)
    (recolours : Recolours turned table other) : other.players = table.players := by
  apply sorted_names_congr
  intro name
  have inOther := mem_players_iff_played recolours.noEmptyEntry name
  have inTable := mem_players_iff_played noEmptyEntry name
  simp only [meetings_of_recoloured recolours] at inOther
  have same := inOther.trans inTable.symm
  simpa only [players, mem_sorted_names] using same

theorem matrix_congr (samePlayers : other.players = table.players)
    (sameScores : ∀ player opponent,
      ScoreMatrix.scoreOf other player opponent = ScoreMatrix.scoreOf table player opponent) :
    ScoreMatrix.ofTable other = ScoreMatrix.ofTable table := by
  have ofList : ∀ table : Crosstable, ScoreMatrix.ofTable table =
      (fun players : List String => ScoreMatrix.ofPlayers table ⟨players.toArray, rfl⟩)
        table.players := fun _ => rfl
  rw [ofList, ofList, samePlayers]
  simp only [ScoreMatrix.ofPlayers, sameScores]

theorem matrix_of_recoloured (noEmptyEntry : table.NoEmptyEntry)
    (recolours : Recolours turned table other) :
    ScoreMatrix.ofTable other = ScoreMatrix.ofTable table :=
  matrix_congr (players_of_recoloured noEmptyEntry recolours) (scores_of_recoloured recolours)

/-! ## Games told from the other side -/

theorem pairing_of_turned (outcome : Outcome) (pairing : Pairing) :
    outcome.turned.pairing = pairing ↔ outcome.pairing = pairing.turned := by
  obtain ⟨first, second⟩ := pairing
  simp only [Outcome.pairing, Outcome.turned, Pairing.turned, Pairing.mk.injEq]
  exact and_comm

theorem tally_of_turned (winner : Winner) :
    Tally.ofWinner winner.turned = (Tally.ofWinner winner).turned := by
  cases winner <;> rfl

theorem results_turned (pairing : Pairing) (games : List Outcome) :
    pairing.results (games.map Outcome.turned) = (pairing.turned.results games).turned := by
  induction games with
  | nil => rfl
  | cons outcome games induction =>
      have sameResult : Tally.ofWinner outcome.turned.winner =
          (Tally.ofWinner outcome.winner).turned := tally_of_turned outcome.winner
      rw [List.map_cons, Pairing.results_cons, Pairing.results_cons, induction, sameResult]
      simp only [pairing_of_turned]
      split <;> rfl

theorem results_append (pairing : Pairing) {earlier later : List Outcome}
    (few : (earlier ++ later).length < 2 ^ 32) :
    (pairing.results (earlier ++ later)).IsSum (pairing.results earlier)
      (pairing.results later) := by
  have parts : (earlier ++ later).length = earlier.length + later.length := List.length_append
  have sum : ∀ winner, (UInt32.ofNat (pairing.ended winner (earlier ++ later))).toNat =
      (UInt32.ofNat (pairing.ended winner earlier)).toNat
        + (UInt32.ofNat (pairing.ended winner later)).toNat := by
    intro winner
    rw [pairing.ended_exact winner few, pairing.ended_exact winner (by omega),
      pairing.ended_exact winner (by omega)]
    exact List.countP_append
  exact ⟨sum .first, sum .second, sum .neither⟩

theorem no_empty_entry_of_games {games : List Outcome} (few : games.length < 2 ^ 32) :
    (ofGames games).NoEmptyEntry := by
  intro pairing tally entry empty
  rw [entry_of_games] at entry
  split at entry
  · rename_i played
    have total := pairing.total_results games
    rw [Option.some.inj entry, empty] at total
    have positive := List.count_pos_iff.mpr played
    have bounded : (games.map Outcome.pairing).count pairing < 2 ^ 32 :=
      List.count_le_length.trans_lt (by rwa [List.length_map])
    have counted := congrArg UInt32.toNat total
    rw [UInt32.toNat_ofNat_of_lt' bounded] at counted
    rw [← counted] at positive
    exact absurd positive (lt_irrefl 0)
  · simp at entry

theorem recolours_of_games {kept turned : List Outcome}
    (few : (kept ++ turned).length < 2 ^ 32) :
    Recolours (fun pairing => pairing.results turned) (ofGames (kept ++ turned))
      (ofGames (kept ++ turned.map Outcome.turned)) where
  games pairing := by
    have fewTurned : (kept ++ turned.map Outcome.turned).length < 2 ^ 32 := by
      rwa [List.length_append, List.length_map, ← List.length_append]
    refine ⟨pairing.results kept, ?_, ?_⟩
    · rw [tallyOf, tally_of_games]
      exact results_append pairing few
    · rw [tallyOf, tally_of_games, ← results_turned]
      exact results_append pairing fewTurned
  noEmptyEntry := by
    apply no_empty_entry_of_games
    rwa [List.length_append, List.length_map, ← List.length_append]

/-! ## Merged tables -/

theorem tally_of_unlisted {first second : String}
    (unlisted : first ∉ table.players ∨ second ∉ table.players) :
    table.tally first second = Tally.zero := by
  have unpaired : (⟨first, second⟩ : Pairing) ∉ table.pairings := by
    intro paired
    obtain ⟨firstListed, secondListed⟩ := players_of_pairing paired
    rcases unlisted with absent | absent
    · exact absent firstListed
    · exact absent secondListed
  exact tally_of_unpaired unpaired

end Crosstable

namespace ScoreMatrix

/-- The score of one player against another by their names, nothing where a name is absent. -/
def scoreByName (matrix : ScoreMatrix) (player opponent : String) : ℚ :=
  ((matrix.score? player opponent).getD Score.zero).games

variable {table : Crosstable}

theorem index_eq_none {name : String} :
    (ofTable table).index? name = none ↔ name ∉ table.players := by
  rw [index?, Vector.finIdxOf?_eq_none_iff]
  exact not_congr (Vector.mem_mk.trans List.mem_toArray)

theorem score_by_name (table : Crosstable) {player opponent : String}
    (different : player ≠ opponent) :
    (ofTable table).scoreByName player opponent = (scoreOf table player opponent).games := by
  by_cases both : player ∈ table.players ∧ opponent ∈ table.players
  · obtain ⟨row, rfl⟩ := mem_players_of_table.mp both.1
    obtain ⟨column, rfl⟩ := mem_players_of_table.mp both.2
    have apart : row ≠ column := fun same => different (congrArg _ same)
    rw [scoreByName, score_of_players, cell_of_table, if_neg apart, Option.getD_some]
  · have noScore : (ofTable table).score? player opponent = none := by
      rw [score?]
      rcases not_and_or.mp both with absent | absent
      · rw [index_eq_none.mpr absent]
        rfl
      · rw [index_eq_none.mpr absent]
        cases (ofTable table).index? player <;> rfl
    have unlisted := not_and_or.mp both
    rw [scoreByName, noScore, scoreOf, Crosstable.tally_of_unlisted unlisted,
      Crosstable.tally_of_unlisted unlisted.symm]
    rfl

/-- No counter behind a score wraps around when two tables are merged. -/
structure ScoresFit (left right : Crosstable) (player opponent : String) : Prop where
  wins : (left.tally player opponent).wins.toNat + (right.tally player opponent).wins.toNat < 2 ^ 32
  losses : (left.tally opponent player).losses.toNat
    + (right.tally opponent player).losses.toNat < 2 ^ 32
  draws : ((left.tally player opponent).draws + (left.tally opponent player).draws).toNat
    + ((right.tally player opponent).draws + (right.tally opponent player).draws).toNat < 2 ^ 32

theorem scores_fit_of_few {left right : Crosstable} (few : left.played + right.played < 2 ^ 32)
    {player opponent : String} (different : player ≠ opponent) :
    ScoresFit left right player opponent := by
  have pairLe : ∀ table : Crosstable, (table.tally player opponent).played
      + (table.tally opponent player).played ≤ table.played := fun table =>
    table.played_pair_le fun same : (⟨player, opponent⟩ : Pairing) = ⟨opponent, player⟩ =>
      different (Pairing.mk.inj same).1
  have inLeft := pairLe left
  have inRight := pairLe right
  simp only [Tally.played] at inLeft inRight
  constructor
  case wins => omega
  case losses => omega
  case draws =>
    rw [UInt32.toNat_add, UInt32.toNat_add]
    omega

theorem halves_merge_iff (left right : Crosstable) (player opponent : String) :
    (scoreOf (left.merge right) player opponent).halves =
        (scoreOf left player opponent).halves + (scoreOf right player opponent).halves ↔
      ScoresFit left right player opponent := by
  let drawsOf (table : Crosstable) : UInt32 :=
    (table.tally player opponent).draws + (table.tally opponent player).draws
  have draws : drawsOf (left.merge right) = drawsOf left + drawsOf right := by
    simp only [drawsOf, Crosstable.tally_merge, Tally.add]
    ac_rfl
  have leftFits := (drawsOf left).toNat_lt
  have rightFits := (drawsOf right).toNat_lt
  have merged : (scoreOf (left.merge right) player opponent).halves =
      2 * (((left.tally player opponent).wins.toNat + (right.tally player opponent).wins.toNat)
          % 2 ^ 32
        + ((left.tally opponent player).losses.toNat + (right.tally opponent player).losses.toNat)
          % 2 ^ 32)
        + ((drawsOf left).toNat + (drawsOf right).toNat) % 2 ^ 32 := by
    rw [← UInt32.toNat_add, ← UInt32.toNat_add, ← UInt32.toNat_add, ← draws]
    simp only [scoreOf, drawsOf, Crosstable.tally_merge, Tally.add]
  rw [merged]
  simp only [scoreOf]
  constructor
  · intro same
    change _ = 2 * _ + (drawsOf left).toNat + (2 * _ + (drawsOf right).toNat) at same
    refine ⟨?_, ?_, ?_⟩
    · omega
    · omega
    · change (drawsOf left).toNat + (drawsOf right).toNat < 2 ^ 32
      omega
  · intro fits
    have fitDraws : (drawsOf left).toNat + (drawsOf right).toNat < 2 ^ 32 := fits.draws
    rw [Nat.mod_eq_of_lt fits.wins, Nat.mod_eq_of_lt fits.losses, Nat.mod_eq_of_lt fitDraws]
    simp only [drawsOf]
    omega

theorem score_by_name_merge_iff (left right : Crosstable) {player opponent : String}
    (different : player ≠ opponent) :
    (ofTable (left.merge right)).scoreByName player opponent =
        (ofTable left).scoreByName player opponent
          + (ofTable right).scoreByName player opponent ↔
      ScoresFit left right player opponent := by
  rw [score_by_name _ different, score_by_name _ different, score_by_name _ different, Score.games,
    Score.games, Score.games, ← add_div, div_left_inj' two_ne_zero, ← Nat.cast_add, Nat.cast_inj]
  exact halves_merge_iff left right player opponent

end ScoreMatrix

namespace Crosstable

/-- Nothing that is made of the score matrix tells the two tables apart. -/
structure SameReport (table other : Crosstable) : Prop where
  matrix : ScoreMatrix.ofTable other = ScoreMatrix.ofTable table
  players : other.players = table.players
  terms : ∀ {α : Type} [Scalar α] (prior virtualDraws : α),
    (ScoreMatrix.ofTable other).terms prior virtualDraws =
      (ScoreMatrix.ofTable table).terms prior virtualDraws
  ratings : ∀ {α : Type} [Analytic α] (link : Link α) (settings : FitSettings α)
    (prior virtualDraws : α),
    other.rate link settings prior virtualDraws = table.rate link settings prior virtualDraws
  legend : Layout.legend (ScoreMatrix.ofTable other).players.toList =
    Layout.legend (ScoreMatrix.ofTable table).players.toList
  scores : Layout.scores (ScoreMatrix.ofTable other) = Layout.scores (ScoreMatrix.ofTable table)

theorem same_report (samePlayers : other.players = table.players)
    (sameMatrix : ScoreMatrix.ofTable other = ScoreMatrix.ofTable table) :
    SameReport table other where
  matrix := sameMatrix
  players := samePlayers
  terms _ _ := by rw [sameMatrix]
  ratings _ _ _ _ := by rw [rate, rate, sameMatrix]
  legend := by rw [sameMatrix]
  scores := by rw [sameMatrix]

def oneGame : Outcome := ⟨.first, "a", "b", false, 6.5⟩

def manyDraws (first second : String) : Crosstable :=
  empty.add ⟨first, second⟩ ⟨0, 0, 2147483648⟩

end Crosstable

end KifuRatings
