import KifuRatings.Proofs.Crosstable.Histogram
import KifuRatings.Proofs.Intake.Coupling

/-!
# The scorebook tells its history

Whatever is done with a scorebook, its table and its flag are told by one list: the games that
were counted since it was last cleared. An operation adds the games of the records that it read;
a record that cannot be read and an operation that is refused add none.
-/

namespace KifuRatings

namespace KomiRange

open Float.Model in
theorem contains_nan (range : KomiRange) {komi : Float} (nan : komi.isNaN = true) :
    range.contains komi = false := by
  have unpacked : komi.toModel.unpack = .notANumber := by
    change komi.toModel.unpack.isNaN = true at nan
    cases parts : komi.toModel.unpack <;> rw [parts] at nan <;> first | rfl | cases nan
  have unordered : ¬range.least ≤ komi := by
    have incomparable : ∀ value : UnpackedFloat, value.le .notANumber = false := by
      rintro (_ | _ | _ | _) <;> rfl
    change ¬decide (range.least.toModel.unpack.le komi.toModel.unpack = true) = true
    rw [unpacked, incomparable]
    decide
  simp [contains, unordered]

end KomiRange

namespace Scorebook

variable {ε : Type}

/-- Beside the operations on inputs, games, records and files found by a search can be handed
over one at a time. -/
inductive Action where
  | score (outcome : Outcome)
  | enter (raw : Bytes)
  | takeFiles (new : RecordFiles)
  | operate (operation : Operation)

structure Turn where
  files : FileSystem
  action : Action

def perform (reader : OutcomeReader ε) (book : Scorebook) (turn : Turn) : Scorebook :=
  match turn.action with
  | .score outcome => book.score outcome
  | .enter raw =>
      match enter reader book raw with
      | .ok entered => entered
      | .error _ => book
  | .takeFiles new => (takeFiles reader turn.files book new).book
  | .operate operation => apply reader book ⟨turn.files, operation⟩

def run (reader : OutcomeReader ε) (range : KomiRange) (turns : List Turn) : Scorebook :=
  turns.foldl (perform reader) (empty range)

def newInDirectory (files : FileSystem) (known : RecordFiles) (route : Bytes)
    (recursive : Bool) : RecordFiles :=
  match known.search files route recursive with
  | .ok (_, new, _) => new
  | .error _ => .empty

def newAtRoute (files : FileSystem) (known : RecordFiles) (route : Bytes) : RecordFiles :=
  match known.accept files route with
  | .ok (_, told, path) => .accepted told path
  | .error _ => .empty

/-- The record files that an operation takes in because they are not known. -/
def newFiles (files : FileSystem) (known : RecordFiles) : Operation → RecordFiles
  | .takeInput route recursive =>
      if files.isDirectory route then newInDirectory files known route recursive
      else newAtRoute files known route
  | .takeDirectory route recursive => newInDirectory files known route recursive
  | .takeFile route => newAtRoute files known route
  | .clear => .empty

/-- One game for each record that can be read. -/
def newGames (reader : OutcomeReader ε) (book : Scorebook) (turn : Turn) : List Outcome :=
  match turn.action with
  | .score outcome => [outcome]
  | .enter raw => gameOf reader raw
  | .takeFiles new => gamesOf reader turn.files new
  | .operate operation =>
      gamesOf reader turn.files (newFiles turn.files book.known operation)

def remember (reader : OutcomeReader ε) (state : Scorebook × List Outcome) (turn : Turn) :
    Scorebook × List Outcome :=
  (perform reader state.1 turn,
    match turn.action with
    | .operate .clear => []
    | _ => state.2 ++ newGames reader state.1 turn)

def rememberAll (reader : OutcomeReader ε) (range : KomiRange) (turns : List Turn) :
    Scorebook × List Outcome :=
  turns.foldl (remember reader) (empty range, [])

/-- The games counted since the last clearing, in the order in which they were counted. -/
def history (reader : OutcomeReader ε) (range : KomiRange) (turns : List Turn) : List Outcome :=
  (rememberAll reader range turns).2

theorem mem_new_in_directory {files : FileSystem} {known : RecordFiles} {route : Bytes}
    {recursive : Bool} {form : RecordForm} {path : Path} :
    (form, path) ∈ newInDirectory files known route recursive ↔
      known.contains path = false ∧ files.Finds route recursive form path := by
  unfold newInDirectory
  cases searched : known.search files route recursive with
  | ok result => exact (RecordFiles.search_eq_ok searched).2 form path
  | error cause => simp [RecordFiles.search_eq_error searched form path]

theorem mem_new_at_route {files : FileSystem} {known : RecordFiles} {route : Bytes}
    {form : RecordForm} {path : Path} :
    (form, path) ∈ newAtRoute files known route ↔
      known.contains path = false ∧ files.Names route form path := by
  unfold newAtRoute
  cases accepted : known.accept files route with
  | ok result => exact (RecordFiles.accept_eq_ok accepted).2 form path
  | error cause => simp [RecordFiles.accept_eq_error accepted form path]

theorem mem_new_files {files : FileSystem} {known : RecordFiles} {operation : Operation}
    {form : RecordForm} {path : Path} :
    (form, path) ∈ newFiles files known operation ↔
      known.contains path = false ∧ Use.Reaches ⟨files, operation⟩ form path := by
  cases operation with
  | takeInput route recursive =>
      simp only [newFiles, Use.Reaches, FileSystem.reaches_iff]
      split
      · exact mem_new_in_directory
      · exact mem_new_at_route
  | takeDirectory route recursive => exact mem_new_in_directory
  | takeFile route => exact mem_new_at_route
  | clear => simp [newFiles, Use.Reaches]

/-- An action counts its new games and may make files known, unless it clears the scorebook. -/
theorem perform_counts (reader : OutcomeReader ε) (book : Scorebook) (turn : Turn)
    (keeps : turn.action ≠ .operate .clear) :
    ∃ known, perform reader book turn =
      { book with known }.scoreAll (newGames reader book turn) := by
  obtain ⟨files, action⟩ := turn
  cases action with
  | score outcome => exact ⟨book.known, (score_all_one book outcome).symm⟩
  | enter raw =>
      refine ⟨book.known, ?_⟩
      simp only [perform, newGames, enter, gameOf]
      cases reader.read raw with
      | ok outcome => exact (score_all_one book outcome).symm
      | error cause => exact (score_all_nil book).symm
  | takeFiles new => exact ⟨book.known, (take_files_adds reader files book new).book⟩
  | operate operation =>
      rcases apply_cases reader book ⟨files, operation⟩ with
        ⟨clears, _⟩ | ⟨_, new, progress, takes, taken, fresh⟩
      · exact absurd (congrArg Action.operate clears) keeps
      · have same : new = newFiles files book.known operation := by
          apply RecordFiles.ext_file
          intro (form, path)
          rw [fresh form path, mem_new_files]
        subst same
        refine ⟨progress.book.known, ?_⟩
        have performed : perform reader book ⟨files, .operate operation⟩ = progress.book := taken
        rw [performed]
        obtain ⟨⟨known, table, nonstandard, komiRange⟩, count, events⟩ := progress
        obtain ⟨_, _, rfl, rfl, rfl, _⟩ := takes
        rfl

/-- The table and the flag of a scorebook are those of these games. -/
structure Tells (range : KomiRange) (book : Scorebook) (games : List Outcome) : Prop where
  table : book.table = Crosstable.ofGames games
  nonstandard : book.nonstandard = games.any (isNonstandard range)
  komiRange : book.komiRange = range

theorem tells_nothing (range : KomiRange) : Tells range (empty range) [] := ⟨rfl, rfl, rfl⟩

theorem tells_more {range : KomiRange} {book : Scorebook} {games : List Outcome}
    (tells : Tells range book games) (known : RecordFiles) (more : List Outcome) :
    Tells range ({ book with known }.scoreAll more) (games ++ more) where
  table := by
    rw [Crosstable.of_games_append, ← tells.table]
    rfl
  nonstandard := by
    rw [List.any_append, ← tells.nonstandard, ← tells.komiRange]
    rfl
  komiRange := tells.komiRange

theorem remember_clear {range : KomiRange} {state : Scorebook × List Outcome}
    (reader : OutcomeReader ε) (tells : Tells range state.1 state.2) (files : FileSystem) :
    remember reader state ⟨files, .operate .clear⟩ = (empty range, []) := by
  have cleared : remember reader state ⟨files, .operate .clear⟩ =
      (empty state.1.komiRange, []) := rfl
  rw [cleared, tells.komiRange]

theorem remember_keeps {state : Scorebook × List Outcome} (reader : OutcomeReader ε) {turn : Turn}
    (keeps : turn.action ≠ .operate .clear) :
    (remember reader state turn).2 = state.2 ++ newGames reader state.1 turn := by
  unfold remember
  split
  · exact absurd ‹turn.action = .operate .clear› keeps
  · rfl

theorem tells_remember {range : KomiRange} {state : Scorebook × List Outcome}
    (reader : OutcomeReader ε) (tells : Tells range state.1 state.2) (turn : Turn) :
    Tells range (remember reader state turn).1 (remember reader state turn).2 := by
  by_cases clears : turn.action = .operate .clear
  · obtain ⟨files, action⟩ := turn
    subst clears
    rw [remember_clear reader tells]
    exact tells_nothing range
  · obtain ⟨known, performed⟩ := perform_counts reader state.1 turn clears
    have after : (remember reader state turn).1 =
        { state.1 with known }.scoreAll (newGames reader state.1 turn) := performed
    rw [after, remember_keeps reader clears]
    exact tells_more tells known (newGames reader state.1 turn)

theorem remember_all_tells (reader : OutcomeReader ε) (range : KomiRange) (turns : List Turn) :
    Tells range (rememberAll reader range turns).1 (rememberAll reader range turns).2 := by
  induction turns using List.reverseRecOn with
  | nil => exact tells_nothing range
  | append_singleton turns turn induction =>
      rw [rememberAll, List.foldl_append]
      exact tells_remember reader induction turn

theorem remember_all_behind_clear (reader : OutcomeReader ε) (range : KomiRange)
    (earlier later : List Turn) (files : FileSystem) :
    rememberAll reader range (earlier ++ ⟨files, .operate .clear⟩ :: later) =
      rememberAll reader range later := by
  have cleared := remember_clear reader (remember_all_tells reader range earlier) files
  rw [rememberAll, List.foldl_append, List.foldl_cons, ← rememberAll, cleared, rememberAll]

theorem remember_all_runs (reader : OutcomeReader ε) (range : KomiRange) (turns : List Turn) :
    rememberAll reader range turns = (run reader range turns, history reader range turns) := by
  have runs : (rememberAll reader range turns).1 = run reader range turns := by
    induction turns using List.reverseRecOn with
    | nil => rfl
    | append_singleton turns turn induction =>
        rw [rememberAll, run, List.foldl_append, List.foldl_append, ← run, ← induction]
        rfl
  exact Prod.ext runs rfl

/-- The table is the histogram of the games counted since the last clearing, the flag tells
whether one of them had a handicap or a komi outside the range, where a komi that is no number
is outside of every range, and what came before the last clearing is no matter. -/
theorem scorebook_tells_history (reader : OutcomeReader ε) (range : KomiRange)
    (turns : List Turn) :
    (run reader range turns).table.Histogram (history reader range turns) ∧
    ((run reader range turns).nonstandard = true ↔ ∃ outcome ∈ history reader range turns,
      outcome.handicap = true ∨ ¬(range.least ≤ outcome.komi ∧ outcome.komi ≤ range.greatest)) ∧
    (∀ komi : Float, komi.isNaN = true → ¬(range.least ≤ komi ∧ komi ≤ range.greatest)) ∧
    (∀ files later,
      run reader range (turns ++ ⟨files, .operate .clear⟩ :: later) = run reader range later ∧
      history reader range (turns ++ ⟨files, .operate .clear⟩ :: later) =
        history reader range later) := by
  have tells := remember_all_tells reader range turns
  rw [remember_all_runs] at tells
  refine ⟨?_, ?_, ?_, ?_⟩
  · rw [tells.table]
    exact Crosstable.histogram_of_games _
  · rw [tells.nonstandard, List.any_eq_true]
    simp only [isNonstandard, KomiRange.contains, Bool.or_eq_true, Bool.not_eq_true',
      Bool.and_eq_false_iff, decide_eq_false_iff_not, not_and_or]
  · intro komi nan inRange
    have outside := range.contains_nan nan
    simp [KomiRange.contains, inRange] at outside
  · intro files later
    have same := remember_all_behind_clear reader range turns later files
    rw [remember_all_runs, remember_all_runs, Prod.mk.injEq] at same
    exact same

end Scorebook

end KifuRatings
