import KifuRatings.Proofs.Intake.Games

/-!
# Counting in shares

Games may be handed out to several counts, in any portions and in any order, and the tables of
the portions may be merged in any order. What comes out is the table of one count over all games.
-/

namespace KifuRatings

/-- Portions of games that are counted apart, and how the tables of the portions are merged. -/
inductive MergePlan where
  | nothing
  | portion (games : List Outcome)
  | both (left right : MergePlan)

/-- The table of a scorebook that only counts these games. -/
def Crosstable.counted (range : KomiRange) (games : List Outcome) : Crosstable :=
  (games.foldl Scorebook.score (Scorebook.empty range)).table

namespace MergePlan

def games : MergePlan → List Outcome
  | nothing => []
  | portion games => games
  | both left right => left.games ++ right.games

def table (range : KomiRange) : MergePlan → Crosstable
  | nothing => .empty
  | portion games => .counted range games
  | both left right => (left.table range).merge (right.table range)

end MergePlan

namespace Crosstable

theorem counted_eq (range : KomiRange) (games : List Outcome) :
    counted range games = ofGames games := by
  rw [counted, Scorebook.score_fold]
  exact zero_add (ofGames games)

theorem table_of_plan (range : KomiRange) (plan : MergePlan) :
    plan.table range = ofGames plan.games := by
  induction plan with
  | nothing => rfl
  | portion games => exact counted_eq range games
  | both left right leftTable rightTable =>
      rw [MergePlan.table, leftTable, rightTable, MergePlan.games, of_games_append]
      rfl

/-- However games are handed out and merged, the table is the one of a single count. Merging is
commutative and associative, merging nothing changes nothing, counting two lists one after the
other is merging their tables, and the order of a table's entries is no matter. -/
theorem portions_count_as_one (range : KomiRange) (plan : MergePlan) (games : List Outcome)
    (handedOut : plan.games.Perm games) :
    plan.table range = counted range games ∧
    (∀ left right : Crosstable, left.merge right = right.merge left) ∧
    (∀ first second third : Crosstable,
      (first.merge second).merge third = first.merge (second.merge third)) ∧
    (∀ table : Crosstable, empty.merge table = table ∧ table.merge empty = table) ∧
    (∀ earlier later, counted range (earlier ++ later) =
      (counted range earlier).merge (counted range later)) ∧
    (∀ (left right : Crosstable) (entries : List (Pairing × Tally)), entries.Perm right.entries →
      entries.foldl (fun table (pairing, tally) => table.add pairing tally) left =
        left.merge right) := by
  refine ⟨?_, merge_comm, merge_assoc, ?_, ?_, ?_⟩
  · rw [table_of_plan, counted_eq, of_games_perm handedOut]
  · intro table
    exact ⟨empty_merge table, (merge_comm table empty).trans (empty_merge table)⟩
  · intro earlier later
    rw [counted_eq, counted_eq, counted_eq, of_games_append]
    rfl
  · intro left right entries same
    exact merge_entries_perm left right same

def threeGames : List Outcome :=
  [⟨.first, "a", "b", false, 6.5⟩, ⟨.second, "a", "b", false, 6.5⟩, ⟨.neither, "b", "a", true, 0.5⟩]

/-- The last game is counted first, and the table of no game is among those that are merged. -/
def threeGamesApart : MergePlan :=
  .both (.both (.portion (threeGames.drop 2)) .nothing) (.portion (threeGames.take 2))

theorem three_games_handed_out : threeGamesApart.games.Perm threeGames :=
  List.perm_append_comm

theorem three_games_in_portions :
    threeGamesApart.games.Perm threeGames ∧
      threeGamesApart.table .standard = counted .standard threeGames ∧
      (threeGamesApart.table .standard).tally "a" "b" = ⟨1, 1, 0⟩ := by
  have asOne := portions_count_as_one .standard threeGamesApart threeGames three_games_handed_out
  exact ⟨three_games_handed_out, asOne.1, by decide +kernel⟩

end Crosstable

end KifuRatings
