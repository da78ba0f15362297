import KifuRatings.Proofs.Crosstable.Enumeration
import KifuRatings.Proofs.Decimal.Numeral
import KifuRatings.Summary.Export

/-!
# Reading an exported table

The records of a summary are read back field by field, and adding them up gives the table. So a
summary holds the whole table, and no two tables have the same summary. The time of the export is
the last field and touches no other.
-/

namespace KifuRatings

namespace Json

def field? (name : String) : Json → Option Json
  | .object fields => (fields.find? (·.1 == name)).map (·.2)
  | _ => none

def elements? : Json → Option (List Json)
  | .list elements => some elements
  | _ => none

def text? : Json → Option String
  | .text content => some content
  | _ => none

def nat? : Json → Option Nat
  | .literal written =>
      let digits := written.toList
      if digits ≠ [] ∧ digits.all Decimal.isDigit then some (Decimal.ofDigits digits) else none
  | _ => none

def counter? (json : Json) : Option UInt32 := do
  let number ← json.nat?
  if number < 2 ^ 32 then some (UInt32.ofNat number) else none

@[simp]
theorem nat_of_nat (number : Nat) : nat? (nat number) = some number := by
  have digits : (Nat.toDigits 10 number).all Decimal.isDigit = true :=
    List.all_eq_true.mpr fun _ => Decimal.is_digit_of_to_digits
  rw [nat, nat?, String.toList_ofList, if_pos ⟨Nat.toDigits_ne_nil, digits⟩,
    Decimal.of_digits_to_digits]

@[simp]
theorem counter_of_nat (number : UInt32) : counter? (nat number.toNat) = some number := by
  simp [counter?, number.toNat_lt]

theorem render_fields_append (depth : Nat) (front back : List (String × Json)) :
    renderFields depth (front ++ back) = renderFields depth front ++ renderFields depth back := by
  induction front with
  | nil => rw [List.nil_append, renderFields, String.empty_append]
  | cons field front induction =>
      obtain ⟨name, value⟩ := field
      rw [List.cons_append, renderFields, renderFields, induction]
      simp only [String.append_assoc]

end Json

namespace Export

variable (table : Crosstable) (rated : Option (RatingList Float)) (nonstandard : Bool)
  (createdAt : String)

def entryOf? (json : Json) : Option (Pairing × Tally) := do
  let first ← (← json.field? "first_player").text?
  let second ← (← json.field? "second_player").text?
  let wins ← (← json.field? "wins").counter?
  let losses ← (← json.field? "losses").counter?
  let draws ← (← json.field? "draws").counter?
  return (⟨first, second⟩, ⟨wins, losses, draws⟩)

/-- The table that a summary was written for. -/
def tableOf? (summary : Json) : Option Crosstable := do
  let records ← (← summary.field? "records").elements?
  return Crosstable.ofEntries (← records.mapM entryOf?)

theorem entry_of_record (pairing : Pairing) (tally : Tally) :
    entryOf? (record pairing tally) = some (pairing, tally) := by
  simp [entryOf?, record, Json.field?, Json.text?]

theorem games_of_record (pairing : Pairing) (tally : Tally) :
    ((record pairing tally).field? "games").bind Json.nat? = some (tally.played % 2 ^ 32) := by
  simp [record, Json.field?, Tally.total_eq, UInt32.toNat_ofNat']

theorem players_of_document :
    (document table rated nonstandard createdAt).field? "players" =
      some (.list (table.players.map .text)) := by
  simp [document, Json.field?, ScoreMatrix.ofTable, ScoreMatrix.ofPlayers]

theorem records_of_document :
    (document table rated nonstandard createdAt).field? "records" =
      some (.list (table.entries.map fun entry => record entry.1 entry.2)) := by
  simp [document, Json.field?]

theorem rows_of_document :
    (document table rated nonstandard createdAt).field? "win_matrix" =
      some (.list ((ScoreMatrix.ofTable table).cells.toList.map fun row =>
        .list (row.toList.map score))) := by
  simp [document, Json.field?]

theorem ratings_of_document :
    (document table rated nonstandard createdAt).field? "ratings" = rated.map ratings := by
  cases rated <;> simp [document, Json.field?]

theorem created_at_of_document :
    (document table rated nonstandard createdAt).field? "created_at" = some (.text createdAt) := by
  cases rated <;> simp [document, Json.field?]

theorem name_of_rating (entry : Rating Float) :
    (rating entry).field? "name" = some (.text entry.name) := by
  simp [rating, Json.field?]

theorem entries_of_records (entries : List (Pairing × Tally)) :
    (entries.map fun entry => record entry.1 entry.2).mapM entryOf? = some entries := by
  induction entries with
  | nil => rfl
  | cons entry entries induction =>
      rw [List.map_cons, List.mapM_cons, entry_of_record, induction]
      rfl

theorem table_of_document :
    tableOf? (document table rated nonstandard createdAt) = some table := by
  rw [tableOf?, records_of_document]
  simp only [Option.bind_eq_bind, Option.bind_some, Json.elements?, entries_of_records]
  exact congrArg some (Crosstable.of_entries_of_enumerates table.enumerates_entries)

theorem document_eq_iff (other : Crosstable) (otherTime : String) :
    document table rated nonstandard createdAt = document other rated nonstandard otherTime ↔
      table = other ∧ createdAt = otherTime := by
  constructor
  · intro same
    have tables := congrArg tableOf? same
    have times := congrArg (Json.field? "created_at") same
    rw [table_of_document, table_of_document] at tables
    rw [created_at_of_document, created_at_of_document] at times
    exact ⟨Option.some.inj tables, Json.text.inj (Option.some.inj times)⟩
  · rintro ⟨rfl, rfl⟩
    rfl

def innerFields : List (String × Json) :=
  [("records", .list (table.entries.map fun entry => record entry.1 entry.2)),
      ("win_matrix", .list ((ScoreMatrix.ofTable table).cells.toList.map fun row =>
        .list (row.toList.map score)))]
    ++ (rated.map fun list => ("ratings", ratings list)).toList
    ++ [("nonstandard_games", .bool nonstandard)]

theorem document_fields :
    document table rated nonstandard createdAt =
      .object (("players", .list (table.players.map .text)) ::
        (innerFields table rated nonstandard ++ [("created_at", .text createdAt)])) := by
  cases rated <;> rfl

/-- Of the text of a summary only the end depends on its time. -/
theorem text_before_time :
    ∃ before : String, ∀ createdAt,
      (document table rated nonstandard createdAt).pretty =
        before ++ Json.quote createdAt ++ "\n\x7d" := by
  let first := Json.render 1 (.list (table.players.map .text))
  let inner := Json.renderFields 1 (innerFields table rated nonstandard)
  refine ⟨"\x7b" ++ Json.lineAt 1 ++ Json.quote "players" ++ ": " ++ first ++ inner
    ++ ("," ++ Json.lineAt 1 ++ Json.quote "created_at" ++ ": "), fun createdAt => ?_⟩
  have lastLine : Json.lineAt 0 ++ "\x7d" = "\n\x7d" := by decide
  rw [document_fields, Json.pretty, Json.render, Json.render_fields_append, ← lastLine]
  simp only [Json.renderFields, Json.render, String.append_assoc, String.append_empty, first, inner]

end Export

end KifuRatings
