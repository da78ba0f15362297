import KifuRatings.Proofs.Intake.Games
import KifuRatings.Proofs.Intake.Search

/-!
# What taking in an input does

All the new files of an input become known at once and are then read one by one. The input
decides which files these are, the files decide which games are counted, and an input that is
refused reaches no file.
-/

namespace KifuRatings

/-- A record file that an input reaches, in a directory or by itself. -/
def FileSystem.Reaches (files : FileSystem) (route : Bytes) (recursive : Bool)
    (form : RecordForm) (path : Path) : Prop :=
  files.Finds route recursive form path ∨ files.Names route form path

theorem FileSystem.reaches_iff {files : FileSystem} {route : Bytes} {recursive : Bool}
    {form : RecordForm} {path : Path} :
    files.Reaches route recursive form path ↔
      if files.isDirectory route then files.Finds route recursive form path
      else files.Names route form path := by
  unfold Reaches isDirectory
  constructor
  · intro either
    rcases either with found | named
    · obtain ⟨directory, _, resolved, isDirectory, _⟩ := id found
      simpa [resolved, Except.toOption, isDirectory] using found
    · obtain ⟨resolved, file, _⟩ := id named
      simpa [resolved, Except.toOption, FileSystem.file_is_no_directory file] using named
  · intro reached
    split at reached
    · exact .inl reached
    · exact .inr reached

namespace Scorebook

variable {ε : Type} {reader : OutcomeReader ε} {files : FileSystem} {book : Scorebook}

def gamesOf (reader : OutcomeReader ε) (files : FileSystem) (new : RecordFiles) : List Outcome :=
  new.toList.flatMap fun file => gamesAt reader files file.1 file.2

def countsOf (reader : OutcomeReader ε) (files : FileSystem) (new : RecordFiles) : IntakeCount :=
  (new.toList.map fun file => countAt reader files file.1 file.2).sum

structure Takes (reader : OutcomeReader ε) (files : FileSystem) (book : Scorebook)
    (new : RecordFiles) (progress : Progress) : Prop where
  fresh : ∀ form path, (form, path) ∈ new → book.known.contains path = false
  known : progress.book.known = book.known.union new
  table : progress.book.table = book.table + Crosstable.ofGames (gamesOf reader files new)
  nonstandard : progress.book.nonstandard =
    (book.nonstandard || (gamesOf reader files new).any (isNonstandard book.komiRange))
  komiRange : progress.book.komiRange = book.komiRange
  count : progress.count = countsOf reader files new

theorem takes_of_adds {new : RecordFiles} {progress : Progress}
    (fresh : ∀ form path, (form, path) ∈ new → book.known.contains path = false)
    (adds : Adds ⟨{ book with known := book.known.union new }, .zero, []⟩ progress
      (gamesOf reader files new) (countsOf reader files new)) :
    Takes reader files book new progress where
  fresh := fresh
  known := by rw [adds.book]; rfl
  table := by rw [adds.book]; rfl
  nonstandard := by rw [adds.book]; rfl
  komiRange := by rw [adds.book]; rfl
  count := by
    rw [adds.count]
    exact zero_add (countsOf reader files new)

theorem takes_nonstandard_iff {new : RecordFiles} {progress : Progress}
    (takes : Takes reader files book new progress) :
    progress.book.nonstandard = true ↔
      book.nonstandard = true ∨ ∃ file ∈ new, ∃ game ∈ gamesAt reader files file.1 file.2,
        isNonstandard book.komiRange game = true := by
  rw [takes.nonstandard, Bool.or_eq_true, List.any_eq_true]
  apply or_congr_right
  simp only [gamesOf, List.mem_flatMap, RecordFiles.mem_to_list]
  constructor
  · intro found
    rcases found with ⟨game, ⟨file, isNew, inFile⟩, nonstandard⟩
    exact ⟨file, isNew, game, inFile, nonstandard⟩
  · intro found
    rcases found with ⟨file, isNew, game, inFile, nonstandard⟩
    exact ⟨game, ⟨file, isNew, inFile⟩, nonstandard⟩

theorem new_not_known {new : RecordFiles} {progress : Progress}
    (takes : Takes reader files book new progress) : ∀ file ∈ new, file ∉ book.known := by
  intro file member
  rcases file with ⟨form, path⟩
  exact RecordFiles.not_mem_of_unknown (takes.fresh form path member) form

theorem takes_nothing (events : List Event) :
    Takes reader files book RecordFiles.empty ⟨book, .zero, events⟩ := by
  have noFiles : RecordFiles.empty.toList = [] := by
    rw [List.eq_nil_iff_forall_not_mem]
    intro file member
    exact RecordFiles.not_mem_empty file (RecordFiles.mem_to_list.mp member)
  have noGames : gamesOf reader files RecordFiles.empty = [] := by
    rw [gamesOf, noFiles]
    rfl
  have noCounts : countsOf reader files RecordFiles.empty = 0 := by
    rw [countsOf, noFiles]
    rfl
  refine ⟨?_, ?_, ?_, ?_, rfl, noCounts.symm⟩
  · intro form path member
    exact absurd member (RecordFiles.not_mem_empty _)
  · exact (RecordFiles.union_empty book.known).symm
  · rw [noGames]
    exact (add_zero book.table).symm
  · simp [noGames]

theorem take_directory_eq_ok {route : Bytes} {recursive : Bool} {progress : Progress}
    (taken : takeDirectory reader files book route recursive = .ok progress) :
    ∃ new, Takes reader files book new progress ∧
      ∀ form path, (form, path) ∈ new ↔
        book.known.contains path = false ∧ files.Finds route recursive form path := by
  unfold takeDirectory at taken
  cases searched : book.known.search files route recursive with
  | error cause =>
      rw [searched] at taken
      simp [bind, Except.bind] at taken
  | ok result =>
      obtain ⟨known, new, event⟩ := result
      obtain ⟨rfl, isNew⟩ := RecordFiles.search_eq_ok searched
      rw [searched] at taken
      simp only [bind, Except.bind, pure, Except.pure, Except.ok.injEq] at taken
      subst taken
      refine ⟨new, takes_of_adds ?_ (adds_events (take_files_adds reader files _ new) _), isNew⟩
      intro form path member
      exact ((isNew form path).mp member).1

theorem take_file_eq_ok {route : Bytes} {progress : Progress}
    (taken : takeFile reader files book route = .ok progress) :
    ∃ new, Takes reader files book new progress ∧
      ∀ form path, (form, path) ∈ new ↔
        book.known.contains path = false ∧ files.Names route form path := by
  unfold takeFile at taken
  cases accepted : book.known.accept files route with
  | error cause =>
      rw [accepted] at taken
      simp [bind, Except.bind] at taken
  | ok result =>
      obtain ⟨known, told, target⟩ := result
      obtain ⟨rfl, isNew⟩ := RecordFiles.accept_eq_ok accepted
      rw [accepted] at taken
      refine ⟨RecordFiles.accepted told target, ?_, isNew⟩
      cases told with
      | none =>
          simp only [bind, Except.bind, pure, Except.pure, Except.ok.injEq] at taken
          subst taken
          exact takes_nothing _
      | some form =>
          simp only [bind, Except.bind, pure, Except.pure, Except.ok.injEq] at taken
          subst taken
          refine takes_of_adds ?_ (take_files_adds reader files _ _)
          intro other place member
          exact ((isNew other place).mp member).1

/-- An input that is taken in makes known what it reaches, unless it is known already. -/
theorem take_input_eq_ok {route : Bytes} {recursive : Bool} {progress : Progress}
    (taken : takeInput reader files book route recursive = .ok progress) :
    ∃ new, Takes reader files book new progress ∧
      ∀ form path, (form, path) ∈ new ↔
        book.known.contains path = false ∧ files.Reaches route recursive form path := by
  simp only [FileSystem.reaches_iff]
  unfold takeInput at taken
  by_cases isDirectory : files.isDirectory route = true
  · simp only [if_pos isDirectory] at taken ⊢
    exact take_directory_eq_ok taken
  · simp only [if_neg isDirectory] at taken ⊢
    exact take_file_eq_ok taken

theorem take_directory_eq_error {route : Bytes} {recursive : Bool} {cause : InputError}
    (refused : takeDirectory reader files book route recursive = .error cause) (form : RecordForm)
    (path : Path) : ¬files.Finds route recursive form path := by
  unfold takeDirectory at refused
  cases searched : book.known.search files route recursive with
  | error cause => exact RecordFiles.search_eq_error searched form path
  | ok result =>
      rw [searched] at refused
      simp [bind, Except.bind, pure, Except.pure] at refused

theorem take_file_eq_error {route : Bytes} {cause : InputError}
    (refused : takeFile reader files book route = .error cause) (form : RecordForm)
    (path : Path) : ¬files.Names route form path := by
  unfold takeFile at refused
  cases accepted : book.known.accept files route with
  | error cause => exact RecordFiles.accept_eq_error accepted form path
  | ok result =>
      obtain ⟨known, told, target⟩ := result
      rw [accepted] at refused
      cases told <;> simp [bind, Except.bind, pure, Except.pure] at refused

theorem take_input_eq_error {route : Bytes} {recursive : Bool} {cause : InputError}
    (refused : takeInput reader files book route recursive = .error cause) (form : RecordForm)
    (path : Path) : ¬files.Reaches route recursive form path := by
  rw [FileSystem.reaches_iff]
  unfold takeInput at refused
  by_cases isDirectory : files.isDirectory route = true
  · rw [if_pos isDirectory] at refused ⊢
    exact take_directory_eq_error refused form path
  · rw [if_neg isDirectory] at refused ⊢
    exact take_file_eq_error refused form path

end Scorebook

end KifuRatings
