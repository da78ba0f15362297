import KifuRatings.Proofs.Crosstable.Legend
import KifuRatings.Proofs.Rating.Names
import KifuRatings.Proofs.Summary.Rebuilding

/-!
# One order of players for all outputs

The score matrix, its legend, the ratings and the exported summary each number the players for
themselves. All of them come to the order of the names, which the entries of the table determine
however they are met; and the summary holds these entries.
-/

namespace KifuRatings

theorem map_to_list_eq_of_fn {ι κ : Type} {size : Nat} (vector : Vector ι size) (value : ι → κ) :
    vector.toList.map value = List.ofFn fun index => value (vector.get index) := by
  apply List.ext_getElem
  · simp
  · intro index _ _
    simp [Vector.get]

theorem ScoreMatrix.rows_listed (matrix : ScoreMatrix) :
    (matrix.cells.toList.map fun row => Json.list (row.toList.map Export.score)) =
      List.ofFn fun row => .list (List.ofFn fun column =>
        Export.score (matrix.cell row column)) := by
  simp only [map_to_list_eq_of_fn]
  rfl

namespace Crosstable

/-- A table is what its entries make it, in whatever order they, the games or the parts of the
table are added or met. -/
structure IsItsEntries (table : Crosstable) : Prop where
  added : ∀ enumeration, Enumerates enumeration table → ofEntries enumeration = table
  addedInAnyOrder : ∀ additions others : List (Pairing × Tally), additions.Perm others →
    ofEntries additions = table → ofEntries others = table
  mergedInAnyOrder : ∀ parts others : List Crosstable, parts.Perm others →
    parts.sum = table → others.sum = table
  players : ∀ enumeration, Enumerates enumeration table →
    sortedNames (sides enumeration) = table.players
  sorted : ∀ enumeration, Enumerates enumeration table → inOrder enumeration = table.entries

/-- Position `k` in the list of players is position `k` everywhere. -/
structure NumbersAlike (table : Crosstable) : Prop where
  ascending : table.players.Pairwise fun left right => Utf8.encode left < Utf8.encode right
  complete : ∀ name, name ∈ table.players ↔ ∃ pairing tally,
    table.tallyAt pairing = some tally ∧ (pairing.first = name ∨ pairing.second = name)
  matrix : (ScoreMatrix.ofTable table).players.toList = table.players
  cells : ∀ row column, (ScoreMatrix.ofTable table).cell row column =
    if row = column then Score.zero
    else ScoreMatrix.scoreOf table ((ScoreMatrix.ofTable table).players.get row)
      ((ScoreMatrix.ofTable table).players.get column)
  legend : (∀ name ∈ table.players, '\n' ∉ name.toList) →
    ∃ width heading lines,
      (Layout.legend table.players).toList.splitOnP (· == '\n') = heading :: lines ++ [[]] ∧
      Layout.Lists width heading "Index" "Player" ∧ lines.length = table.players.length ∧
      ∀ (index : Nat) (listed : index < table.players.length), ∃ line,
        lines[index]? = some line ∧
        Layout.Lists width line (Layout.number index) table.players[index]
  ratings : ∀ {α : Type} [Analytic α] (link : Link α) settings prior draws list,
    table.rate link settings prior draws = .ok list →
      list.entries.toList.map (·.name) = table.players
  exportedPlayers : ∀ rated nonstandard createdAt,
    (Export.document table rated nonstandard createdAt).field? "players" =
      some (.list (table.players.map .text))
  exportedRows : ∀ rated nonstandard createdAt,
    (Export.document table rated nonstandard createdAt).field? "win_matrix" =
      some (.list (List.ofFn fun row => .list (List.ofFn fun column =>
        Export.score ((ScoreMatrix.ofTable table).cell row column))))
  exportedRatings : ∀ link settings prior draws list nonstandard createdAt,
    table.rate link settings prior draws = .ok list → ∃ ratings,
      (Export.document table (some list) nonstandard createdAt).field? "ratings" =
        some (.list ratings) ∧
      ratings.map (Json.field? "name") = table.players.map fun name => some (.text name)

/-- A summary has one record for each entry, and holds nothing else than the table, the ratings,
the flag and the time. The games of a record are added up as counters. -/
structure ExportedWhole (table : Crosstable) : Prop where
  ascending : table.entries.Pairwise fun left right => left.1.ByteBefore right.1
  complete : Enumerates table.entries table
  records : ∀ rated nonstandard createdAt, ∃ records,
    (Export.document table rated nonstandard createdAt).field? "records" = some (.list records) ∧
    records.map Export.entryOf? = table.entries.map some ∧
    (records.map fun record => (record.field? "games").bind Json.nat?) =
      table.entries.map fun entry =>
        some ((entry.2.wins.toNat + entry.2.losses.toNat + entry.2.draws.toNat) % 2 ^ 32)
  rebuilt : ∀ rated nonstandard createdAt,
    Export.tableOf? (Export.document table rated nonstandard createdAt) = some table
  same : ∀ rated nonstandard createdAt other otherTime,
    Export.document table rated nonstandard createdAt =
        Export.document other rated nonstandard otherTime ↔
      table = other ∧ createdAt = otherTime
  time : ∀ rated nonstandard, ∃ before : String, ∀ createdAt,
    (Export.document table rated nonstandard createdAt).pretty =
      before ++ Json.quote createdAt ++ "\n\x7d"

theorem is_its_entries (table : Crosstable) : table.IsItsEntries where
  added _ := of_entries_of_enumerates
  addedInAnyOrder _ _ same built := (of_entries_perm same).symm.trans built
  mergedInAnyOrder _ _ same merged := same.sum_eq.symm.trans merged
  players _ := players_of_enumerates
  sorted _ := in_order_of_enumerates

theorem numbers_alike (table : Crosstable) : table.NumbersAlike where
  ascending := table.players_ascend
  complete name := by
    rw [mem_players_iff]
    constructor
    · rintro ⟨⟨pairing, tally⟩, listed, named⟩
      exact ⟨pairing, tally, mem_entries.mp listed, named⟩
    · rintro ⟨pairing, tally, held, named⟩
      exact ⟨(pairing, tally), mem_entries.mpr held, named⟩
  matrix := rfl
  cells := ScoreMatrix.cell_of_table
  legend oneLines := ⟨_, _, _, Layout.legend_lines oneLines,
    Layout.heading_lists table.players.length, Layout.length_player_lines table.players,
    fun _ listed => Layout.player_line_lists listed⟩
  ratings _ _ _ _ _ := names_of_rate
  exportedPlayers := Export.players_of_document table
  exportedRows rated nonstandard createdAt := by
    rw [Export.rows_of_document, ScoreMatrix.rows_listed]
  exportedRatings _ _ _ _ list nonstandard createdAt rated := by
    refine ⟨_, Export.ratings_of_document table (some list) nonstandard createdAt, ?_⟩
    have names := congrArg (List.map fun name => some (Json.text name)) (names_of_rate rated)
    rw [List.map_map] at names ⊢
    rw [← names]
    exact List.map_congr_left fun entry _ => Export.name_of_rating entry

theorem exported_whole (table : Crosstable) : table.ExportedWhole where
  ascending := table.entries_ascend
  complete := table.enumerates_entries
  records rated nonstandard createdAt := by
    refine ⟨_, Export.records_of_document table rated nonstandard createdAt, ?_, ?_⟩
    · rw [List.map_map]
      exact List.map_congr_left fun entry _ => Export.entry_of_record entry.1 entry.2
    · rw [List.map_map]
      exact List.map_congr_left fun entry _ => Export.games_of_record entry.1 entry.2
  rebuilt := Export.table_of_document table
  same := Export.document_eq_iff table
  time := Export.text_before_time table

def manyGames : Tally := ⟨2147483648, 2147483648, 0⟩

end Crosstable

end KifuRatings
