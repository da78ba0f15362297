import KifuRatings.Intake.Scorebook
import KifuRatings.Proofs.Crosstable.Merge

/-!
# What taking in files adds

Every operation that reads files adds games to a scorebook and numbers to a count, and does
nothing else. Which games a file holds depends on its form and its content alone, so what a
pass over many files adds is the sum of what each file adds.
-/

namespace KifuRatings

namespace IntakeCount

instance : Zero IntakeCount := ⟨zero⟩

instance : Add IntakeCount := ⟨add⟩

theorem add_fields (left right : IntakeCount) :
    left + right = ⟨left.files + right.files, left.games + right.games,
      left.malformed + right.malformed, left.unread + right.unread⟩ := rfl

instance : AddCommMonoid IntakeCount where
  add_comm left right := by simp [add_fields, Nat.add_comm]
  add_assoc first second third := by simp [add_fields, Nat.add_assoc]
  zero_add count := by
    change IntakeCount.add zero count = count
    simp [IntakeCount.add, zero]
  add_zero count := by
    change IntakeCount.add count zero = count
    simp [IntakeCount.add, zero]
  nsmul := nsmulRec

end IntakeCount

namespace Scorebook

variable {ε : Type}

def recordsIn (form : RecordForm) (content : Bytes) : List Bytes :=
  match form with
  | .lines => (lines content).filter fun line => !isBlankLine line
  | .whole => [content]

def gameOf (reader : OutcomeReader ε) (raw : Bytes) : List Outcome :=
  (reader.read raw).toOption.toList

def gamesIn (reader : OutcomeReader ε) (form : RecordForm) (content : Bytes) : List Outcome :=
  (recordsIn form content).flatMap (gameOf reader)

/-- The games of the file at a path. A file that cannot be read holds none. -/
def gamesAt (reader : OutcomeReader ε) (files : FileSystem) (form : RecordForm) (path : Path) :
    List Outcome :=
  match files.readPath path with
  | .ok content => gamesIn reader form content
  | .error _ => []

def countOf (reader : OutcomeReader ε) (raw : Bytes) : IntakeCount :=
  match reader.read raw with
  | .ok _ => ⟨0, 1, 0, 0⟩
  | .error _ => ⟨0, 0, 1, 0⟩

def countIn (reader : OutcomeReader ε) (form : RecordForm) (content : Bytes) : IntakeCount :=
  ((recordsIn form content).map (countOf reader)).sum

def countAt (reader : OutcomeReader ε) (files : FileSystem) (form : RecordForm) (path : Path) :
    IntakeCount :=
  match files.readPath path with
  | .ok content => ⟨1, 0, 0, 0⟩ + countIn reader form content
  | .error _ => ⟨0, 0, 0, 1⟩

def scoreAll (book : Scorebook) (games : List Outcome) : Scorebook where
  known := book.known
  table := book.table + Crosstable.ofGames games
  nonstandard := book.nonstandard || games.any (isNonstandard book.komiRange)
  komiRange := book.komiRange

@[simp]
theorem score_all_nil (book : Scorebook) : book.scoreAll [] = book := by
  have same : book.table + Crosstable.ofGames [] = book.table := add_zero book.table
  simp [scoreAll, same]

@[simp]
theorem score_all_one (book : Scorebook) (outcome : Outcome) :
    book.scoreAll [outcome] = book.score outcome := by
  have same : book.table + Crosstable.ofGames [outcome] = book.table.count outcome :=
    (Crosstable.count_games [outcome] book.table).symm
  simp [scoreAll, score, same]

theorem score_all_append (book : Scorebook) (earlier later : List Outcome) :
    book.scoreAll (earlier ++ later) = (book.scoreAll earlier).scoreAll later := by
  simp [scoreAll, Crosstable.of_games_append, add_assoc, Bool.or_assoc]

theorem score_fold (book : Scorebook) (games : List Outcome) :
    games.foldl score book = book.scoreAll games := by
  induction games generalizing book with
  | nil => exact (score_all_nil book).symm
  | cons outcome games induction =>
      rw [List.foldl_cons, induction, ← score_all_one, ← score_all_append]
      rfl

/-- An operation on a scorebook counts some games and nothing else. -/
structure Adds (before after : Progress) (games : List Outcome) (count : IntakeCount) : Prop where
  book : after.book = before.book.scoreAll games
  count : after.count = before.count + count

theorem adds_nothing (progress : Progress) : Adds progress progress [] 0 :=
  ⟨(score_all_nil _).symm, (add_zero _).symm⟩

theorem adds_both {first second third : Progress} {earlier later : List Outcome}
    {count more : IntakeCount} (before : Adds first second earlier count)
    (after : Adds second third later more) :
    Adds first third (earlier ++ later) (count + more) where
  book := by rw [after.book, before.book, score_all_append]
  count := by rw [after.count, before.count, add_assoc]

theorem adds_events {before after : Progress} {games : List Outcome} {count : IntakeCount}
    (adds : Adds before after games count) (events : List Event) :
    Adds before { after with events } games count :=
  ⟨adds.book, adds.count⟩

theorem adds_fold {Item : Type} (step : Progress → Item → Progress)
    (games : Item → List Outcome) (count : Item → IntakeCount)
    (adds : ∀ progress item, Adds progress (step progress item) (games item) (count item))
    (items : List Item) (progress : Progress) :
    Adds progress (items.foldl step progress) (items.flatMap games) (items.map count).sum := by
  induction items generalizing progress with
  | nil => exact adds_nothing progress
  | cons item items induction =>
      rw [List.foldl_cons, List.flatMap_cons, List.map_cons, List.sum_cons]
      exact adds_both (adds progress item) (induction (step progress item))

theorem adds_numbered_fold {Item : Type} (step : Progress → Item × Nat → Progress)
    (games : Item → List Outcome) (count : Item → IntakeCount)
    (adds : ∀ progress item, Adds progress (step progress item) (games item.1) (count item.1))
    (items : List Item) (progress : Progress) :
    Adds progress (items.zipIdx.foldl step progress) (items.flatMap games)
      (items.map count).sum := by
  have whole := adds_fold step (fun item => games item.1) (fun item => count item.1) adds
    items.zipIdx progress
  have unnumbered : items.zipIdx.map Prod.fst = items := List.zipIdx_map_fst 0 items
  have sameGames : items.zipIdx.flatMap (fun item => games item.1) = items.flatMap games := by
    conv_rhs => rw [← unnumbered, List.flatMap_map]
  have sameCount : (items.zipIdx.map fun item => count item.1) = items.map count := by
    conv_rhs => rw [← unnumbered, List.map_map]
    rfl
  rwa [sameGames, sameCount] at whole

theorem take_record_adds (reader : OutcomeReader ε) (event : String → Event)
    (progress : Progress) (raw : Bytes) :
    Adds progress (takeRecord reader event progress raw) (gameOf reader raw)
      (countOf reader raw) := by
  unfold takeRecord enter gameOf countOf
  cases reader.read raw with
  | ok outcome => exact ⟨(score_all_one _ _).symm, rfl⟩
  | error cause => exact ⟨(score_all_nil _).symm, rfl⟩

theorem flat_map_unless {Item : Type} (skips : Item → Bool) (games : Item → List Outcome)
    (items : List Item) :
    (items.flatMap fun item => if skips item then [] else games item) =
      (items.filter fun item => !skips item).flatMap games := by
  induction items with
  | nil => rfl
  | cons item items induction =>
      rw [List.flatMap_cons, induction]
      cases skipped : skips item <;> simp [skipped]

theorem sum_unless {Item : Type} (skips : Item → Bool) (count : Item → IntakeCount)
    (items : List Item) :
    (items.map fun item => if skips item then 0 else count item).sum =
      ((items.filter fun item => !skips item).map count).sum := by
  induction items with
  | nil => rfl
  | cons item items induction =>
      rw [List.map_cons, List.sum_cons, induction]
      cases skipped : skips item <;> simp [skipped]

theorem take_lines_adds (reader : OutcomeReader ε) (path : Path) (content : Bytes)
    (progress : Progress) :
    Adds progress (takeLines reader path content progress) (gamesIn reader .lines content)
      (countIn reader .lines content) := by
  have step : ∀ (progress : Progress) (item : Bytes × Nat),
      Adds progress
        (if isBlankLine item.1 then progress
          else takeRecord reader (.malformedLine path (item.2 + 1)) progress item.1)
        (if isBlankLine item.1 then [] else gameOf reader item.1)
        (if isBlankLine item.1 then 0 else countOf reader item.1) := by
    intro progress item
    by_cases blank : isBlankLine item.1 = true
    · simp only [if_pos blank]
      exact adds_nothing progress
    · simp only [if_neg blank]
      exact take_record_adds reader _ progress item.1
  have whole := adds_numbered_fold _
    (fun line => if isBlankLine line then [] else gameOf reader line)
    (fun line => if isBlankLine line then 0 else countOf reader line) step (lines content) progress
  rwa [flat_map_unless, sum_unless] at whole

theorem take_content_adds (reader : OutcomeReader ε) (form : RecordForm) (path : Path)
    (content : Bytes) (progress : Progress) :
    Adds progress (takeContent reader form path content progress) (gamesIn reader form content)
      (countIn reader form content) := by
  cases form with
  | lines => exact take_lines_adds reader path content progress
  | whole =>
      have games : gamesIn reader .whole content = gameOf reader content := by
        simp [gamesIn, recordsIn]
      have count : countIn reader .whole content = countOf reader content := by
        simp [countIn, recordsIn]
      rw [games, count]
      exact take_record_adds reader _ progress content

theorem take_at_adds (reader : OutcomeReader ε) (files : FileSystem) (progress : Progress)
    (form : RecordForm) (path : Path) :
    Adds progress (takeAt reader files progress form path) (gamesAt reader files form path)
      (countAt reader files form path) := by
  unfold takeAt gamesAt countAt
  cases files.readPath path with
  | ok content =>
      have opened : Adds progress { progress with count := progress.count.add ⟨1, 0, 0, 0⟩ } []
          ⟨1, 0, 0, 0⟩ := ⟨(score_all_nil _).symm, rfl⟩
      exact adds_both opened (take_content_adds reader form path content _)
  | error cause => exact ⟨(score_all_nil _).symm, rfl⟩

theorem take_files_adds (reader : OutcomeReader ε) (files : FileSystem) (book : Scorebook)
    (new : RecordFiles) :
    Adds ⟨book, .zero, []⟩ (takeFiles reader files book new)
      (new.toList.flatMap fun file => gamesAt reader files file.1 file.2)
      (new.toList.map fun file => countAt reader files file.1 file.2).sum := by
  unfold takeFiles
  apply adds_numbered_fold
  intro progress item
  exact adds_events (take_at_adds reader files progress item.1.1 item.1.2) _

end Scorebook

end KifuRatings
