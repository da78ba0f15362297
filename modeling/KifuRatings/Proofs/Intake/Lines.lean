import KifuRatings.Files.Change
import KifuRatings.Proofs.Crosstable.Histogram
import KifuRatings.Proofs.Crosstable.Totals
import KifuRatings.Proofs.Intake.Forms
import KifuRatings.Proofs.Intake.Taking
import KifuRatings.Proofs.Text.Pieces

/-!
# A file of lines is its lines

Taking in a file of lines comes to the same as taking in each line that is not blank as a file of
its own. So contents can be joined by a line feed or taken in one after the other, and a line that
cannot be read is as good as a blank one to all the others. Every file and every record that is
handed over appears in the count once, whatever becomes of it. The count of games is by how many the
table grows, as far as the counters of the table reach.
-/

namespace KifuRatings

namespace IntakeCount

/-- Records that were read, understood or not. -/
def records : IntakeCount →+ Nat where
  toFun count := count.games + count.malformed
  map_zero' := rfl
  map_add' left right := by
    simp only [add_fields]
    omega

/-- Files that were opened, with success or not. -/
def opened : IntakeCount →+ Nat where
  toFun count := count.files + count.unread
  map_zero' := rfl
  map_add' left right := by
    simp only [add_fields]
    omega

def scored : IntakeCount →+ Nat where
  toFun count := count.games
  map_zero' := rfl
  map_add' _ _ := rfl

end IntakeCount

namespace Scorebook

variable {ε : Type}

/-! ## Contents and lines -/

theorem lines_append (first second : Bytes) :
    lines (first ++ 0x0A :: second) = lines first ++ lines second :=
  List.splitOnP_append_cons first second rfl

theorem lines_eq_singleton {line : Bytes} (oneLine : 0x0A ∉ line) : lines line = [line] := by
  apply List.splitOnP_eq_singleton
  intro byte member
  rw [beq_eq_false_iff_ne]
  rintro rfl
  exact oneLine member

theorem lines_joined (content : Bytes) : [0x0A].intercalate (lines content) = content :=
  List.intercalate_splitOn 0x0A

theorem no_feed_in_line {content line : Bytes} (member : line ∈ lines content) :
    0x0A ∉ line := by
  intro feed
  simpa using Text.no_separator_in_piece member 0x0A feed

theorem records_in_append (first second : Bytes) :
    recordsIn .lines (first ++ 0x0A :: second) =
      recordsIn .lines first ++ recordsIn .lines second := by
  simp only [recordsIn, lines_append, List.filter_append]

theorem records_in_joined (parts : List Bytes) :
    recordsIn .lines ([0x0A].intercalate parts) = parts.flatMap (recordsIn .lines) := by
  induction parts with
  | nil => rfl
  | cons part parts induction =>
      cases parts with
      | nil => simp
      | cons next parts =>
          rw [List.flatMap_cons, ← induction, List.intercalate_cons_cons, List.append_assoc,
            List.singleton_append, records_in_append]

theorem records_in_line {line : Bytes} (oneLine : 0x0A ∉ line) :
    recordsIn .lines line = if isBlankLine line then [] else [line] := by
  rw [recordsIn, lines_eq_singleton oneLine]
  cases blank : isBlankLine line <;> simp [blank]

/-! ## Contents taken in -/

def afterLines (reader : OutcomeReader ε) (path : Path) (book : Scorebook) (content : Bytes) :
    Progress :=
  takeLines reader path content ⟨book, .zero, []⟩

/-- What records come to that are files of their own, one after the other. -/
def afterRecords (reader : OutcomeReader ε) (path : Path) (book : Scorebook)
    (records : List Bytes) : Progress :=
  records.foldl (fun progress raw => takeWhole reader path raw progress) ⟨book, .zero, []⟩

variable {reader : OutcomeReader ε} {path : Path} {book : Scorebook}

theorem after_lines_adds (content : Bytes) :
    (afterLines reader path book content).book = book.scoreAll (gamesIn reader .lines content) ∧
      (afterLines reader path book content).count = countIn reader .lines content := by
  have adds := take_lines_adds reader path content ⟨book, .zero, []⟩
  exact ⟨adds.book, adds.count.trans (zero_add _)⟩

theorem after_records_adds (records : List Bytes) :
    (afterRecords reader path book records).book =
        book.scoreAll (records.flatMap (gameOf reader)) ∧
      (afterRecords reader path book records).count = (records.map (countOf reader)).sum := by
  have adds := adds_fold (fun progress raw => takeWhole reader path raw progress) (gameOf reader)
    (countOf reader) (take_record_adds reader (.malformedFile path)) records ⟨book, .zero, []⟩
  exact ⟨adds.book, adds.count.trans (zero_add _)⟩

theorem records_count_of (raw : Bytes) : IntakeCount.records (countOf reader raw) = 1 := by
  unfold countOf
  cases reader.read raw <;> rfl

theorem scored_count_of (raw : Bytes) :
    IntakeCount.scored (countOf reader raw) = (gameOf reader raw).length := by
  unfold countOf gameOf
  cases reader.read raw <;> rfl

theorem opened_count_of (raw : Bytes) : IntakeCount.opened (countOf reader raw) = 0 := by
  unfold countOf
  cases reader.read raw <;> rfl

theorem field_count_in (field : IntakeCount →+ Nat) (form : RecordForm) (content : Bytes) :
    field (countIn reader form content) =
      ((recordsIn form content).map fun raw => field (countOf reader raw)).sum := by
  rw [countIn, map_list_sum, List.map_map]
  rfl

theorem records_count_in (form : RecordForm) (content : Bytes) :
    IntakeCount.records (countIn reader form content) = (recordsIn form content).length := by
  simp [field_count_in, records_count_of]

theorem scored_count_in (form : RecordForm) (content : Bytes) :
    IntakeCount.scored (countIn reader form content) = (gamesIn reader form content).length := by
  simp only [field_count_in, scored_count_of, gamesIn, List.length_flatMap]

theorem opened_count_in (form : RecordForm) (content : Bytes) :
    IntakeCount.opened (countIn reader form content) = 0 := by
  simp [field_count_in, opened_count_of]

/-! ## Files taken in -/

def recordsAt (files : FileSystem) (form : RecordForm) (path : Path) : List Bytes :=
  match files.readPath path with
  | .ok content => recordsIn form content
  | .error _ => []

variable {files : FileSystem}

theorem records_count_at (form : RecordForm) (path : Path) :
    IntakeCount.records (countAt reader files form path) =
      (recordsAt files form path).length := by
  unfold countAt recordsAt
  cases files.readPath path with
  | ok content =>
      rw [map_add, records_count_in]
      exact Nat.zero_add _
  | error cause => rfl

theorem scored_count_at (form : RecordForm) (path : Path) :
    IntakeCount.scored (countAt reader files form path) =
      (gamesAt reader files form path).length := by
  unfold countAt gamesAt
  cases files.readPath path with
  | ok content =>
      rw [map_add, scored_count_in]
      exact Nat.zero_add _
  | error cause => rfl

theorem opened_count_at (form : RecordForm) (path : Path) :
    IntakeCount.opened (countAt reader files form path) = 1 := by
  unfold countAt
  cases files.readPath path with
  | ok content =>
      rw [map_add, opened_count_in]
      rfl
  | error cause => rfl

theorem games_score_all (games : List Outcome) :
    (book.scoreAll games).table.games = book.table.games + UInt32.ofNat games.length := by
  have sum : (book.scoreAll games).table.games =
      book.table.games + (Crosstable.ofGames games).games :=
    Crosstable.games_merge book.table (Crosstable.ofGames games)
  rw [sum, (Crosstable.histogram_of_games games).games]

/-! ## What the count accounts for -/

/-- A file of lines comes to what its lines come to that are not blank, each as a record of its
own. Line feeds stand between the lines, and nowhere else. -/
structure ComesToItsLines (reader : OutcomeReader ε) (path : Path) (book : Scorebook)
    (content : Bytes) : Prop where
  joined : [0x0A].intercalate (lines content) = content
  apart : ∀ line ∈ lines content, 0x0A ∉ line
  sameBook : (afterLines reader path book content).book =
    (afterRecords reader path book ((lines content).filter fun line => !isBlankLine line)).book
  sameCount : (afterLines reader path book content).count =
    (afterRecords reader path book ((lines content).filter fun line => !isBlankLine line)).count
  records : (afterLines reader path book content).count.games +
      (afterLines reader path book content).count.malformed =
    (lines content).countP fun line => !isBlankLine line

theorem comes_to_its_lines (reader : OutcomeReader ε) (path : Path) (book : Scorebook)
    (content : Bytes) : ComesToItsLines reader path book content where
  joined := lines_joined content
  apart _ member := no_feed_in_line member
  sameBook := (after_lines_adds content).1.trans (after_records_adds _).1.symm
  sameCount := (after_lines_adds content).2.trans (after_records_adds _).2.symm
  records := by
    rw [(after_lines_adds content).2]
    exact (records_count_in .lines content).trans List.countP_eq_length_filter.symm

theorem after_lines_append (first second : Bytes) :
    (afterLines reader path book (first ++ 0x0A :: second)).book =
        (afterLines reader path (afterLines reader path book first).book second).book ∧
      (afterLines reader path book (first ++ 0x0A :: second)).count =
        (afterLines reader path book first).count.add
          (afterLines reader path (afterLines reader path book first).book second).count := by
  have games : gamesIn reader .lines (first ++ 0x0A :: second) =
      gamesIn reader .lines first ++ gamesIn reader .lines second := by
    rw [gamesIn, records_in_append, List.flatMap_append]
    rfl
  have count : countIn reader .lines (first ++ 0x0A :: second) =
      countIn reader .lines first + countIn reader .lines second := by
    rw [countIn, records_in_append, List.map_append, List.sum_append]
    rfl
  simp only [after_lines_adds]
  rw [games, score_all_append, count]
  exact ⟨rfl, rfl⟩

/-- A line that cannot be read counts as malformed, and otherwise like a blank line. -/
theorem after_malformed_line (before after : List Bytes) {line blank : Bytes} {cause : ε}
    (oneLine : 0x0A ∉ line) (notBlank : isBlankLine line = false)
    (malformed : reader.read line = .error cause) (oneBlank : 0x0A ∉ blank)
    (isBlank : isBlankLine blank = true) :
    (afterLines reader path book ([0x0A].intercalate (before ++ line :: after))).book =
        (afterLines reader path book ([0x0A].intercalate (before ++ blank :: after))).book ∧
      (afterLines reader path book ([0x0A].intercalate (before ++ line :: after))).count =
        (afterLines reader path book ([0x0A].intercalate (before ++ blank :: after))).count.add
          ⟨0, 0, 1, 0⟩ := by
  have withLine : recordsIn .lines ([0x0A].intercalate (before ++ line :: after)) =
      before.flatMap (recordsIn .lines) ++ line :: after.flatMap (recordsIn .lines) := by
    rw [records_in_joined, List.flatMap_append, List.flatMap_cons, records_in_line oneLine,
      notBlank]
    rfl
  have withBlank : recordsIn .lines ([0x0A].intercalate (before ++ blank :: after)) =
      before.flatMap (recordsIn .lines) ++ after.flatMap (recordsIn .lines) := by
    rw [records_in_joined, List.flatMap_append, List.flatMap_cons, records_in_line oneBlank,
      isBlank]
    rfl
  have noGame : gameOf reader line = [] := by simp [gameOf, malformed, Except.toOption]
  have oneRecord : countOf reader line = ⟨0, 0, 1, 0⟩ := by simp [countOf, malformed]
  simp only [after_lines_adds, gamesIn, countIn, withLine, withBlank]
  constructor
  · rw [List.flatMap_append, List.flatMap_append, List.flatMap_cons, noGame, List.nil_append]
  · rw [List.map_append, List.map_append, List.sum_append, List.sum_append, List.map_cons,
      List.sum_cons, oneRecord, add_comm (⟨0, 0, 1, 0⟩ : IntakeCount), ← add_assoc]
    rfl

/-- Every file and every record that is handed over is in the count once. -/
structure Accounts (files : FileSystem) (book : Scorebook) (new : RecordFiles)
    (progress : Progress) : Prop where
  opened : progress.count.files + progress.count.unread = new.size
  games : progress.book.table.games = book.table.games + UInt32.ofNat progress.count.games
  gamesExact : progress.book.table.games.toNat = book.table.games.toNat + progress.count.games ↔
    book.table.games.toNat + progress.count.games < 2 ^ 32
  records : progress.count.games + progress.count.malformed =
    (new.whole.toList.countP fun path => (files.readPath path).isOk) +
      (new.lines.toList.map fun path => match files.readPath path with
        | .ok content => (lines content).countP fun line => !isBlankLine line
        | .error _ => 0).sum

theorem records_in_files (files : FileSystem) (new : RecordFiles) :
    (new.toList.map fun file => (recordsAt files file.1 file.2).length).sum =
      (new.whole.toList.countP fun path => (files.readPath path).isOk) +
        (new.lines.toList.map fun path => match files.readPath path with
          | .ok content => (lines content).countP fun line => !isBlankLine line
          | .error _ => 0).sum := by
  have ofLines : ∀ path, (recordsAt files .lines path).length =
      match files.readPath path with
        | .ok content => (lines content).countP fun line => !isBlankLine line
        | .error _ => 0 := by
    intro path
    unfold recordsAt
    cases files.readPath path with
    | ok content => exact List.countP_eq_length_filter.symm
    | error cause => rfl
  have ofWhole : ∀ paths : List Path,
      (paths.map fun path => (recordsAt files .whole path).length).sum =
        paths.countP fun path => (files.readPath path).isOk := by
    intro paths
    induction paths with
    | nil => rfl
    | cons path paths induction =>
        rw [List.map_cons, List.sum_cons, induction, List.countP_cons, Nat.add_comm]
        unfold recordsAt
        cases files.readPath path <;> rfl
  rw [RecordFiles.toList, List.map_append, List.sum_append, List.map_map, List.map_map,
    Nat.add_comm, ← ofWhole]
  simp only [Function.comp_def, ofLines]

theorem games_exact_iff {before after : UInt32} {games : Nat}
    (counted : after = before + UInt32.ofNat games) :
    after.toNat = before.toNat + games ↔ before.toNat + games < 2 ^ 32 := by
  have wrapped : after.toNat = (before.toNat + games) % 2 ^ 32 := by
    rw [counted, UInt32.toNat_add, UInt32.toNat_ofNat', Nat.add_mod_mod]
  omega

theorem take_files_accounts (reader : OutcomeReader ε) (files : FileSystem) (book : Scorebook)
    (new : RecordFiles) : Accounts files book new (takeFiles reader files book new) := by
  have adds := take_files_adds reader files book new
  have counted : ∀ field : IntakeCount →+ Nat, field (takeFiles reader files book new).count =
      (new.toList.map fun file => field (countAt reader files file.1 file.2)).sum := by
    intro field
    rw [adds.count, map_add, map_list_sum, List.map_map]
    exact (congrArg (· + _) (map_zero field)).trans (zero_add _)
  have games : (takeFiles reader files book new).book.table.games =
      book.table.games + UInt32.ofNat (takeFiles reader files book new).count.games := by
    have scored := counted IntakeCount.scored
    simp only [scored_count_at, ← List.length_flatMap] at scored
    rw [adds.book, games_score_all, ← scored]
    rfl
  refine ⟨?opened, games, games_exact_iff games, ?records⟩
  case opened =>
    have opened := counted IntakeCount.opened
    simp only [opened_count_at] at opened
    rw [RecordFiles.size_eq_length]
    exact opened.trans (by simp)
  case records =>
    have records := counted IntakeCount.records
    simp only [records_count_at] at records
    exact records.trans (records_in_files files new)

def fullBook : Scorebook :=
  { empty .standard with table := Crosstable.empty.add ⟨"a", "b"⟩ ⟨4294967295, 0, 0⟩ }

def oneGameFile : FileSystem :=
  (FileSystem.empty ["home"]).put ["home", "g.sgf"]
    (.file (Utf8.encode "(;PB[a]PW[b]RE[W+R]KM[6.5])"))

end Scorebook

end KifuRatings
