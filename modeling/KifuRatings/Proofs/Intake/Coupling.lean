import KifuRatings.Proofs.Intake.Taking

/-!
# The table follows the known files

A scorebook is in use while files come, change and go, and it is cleared now and then. In
every state that is reached in this way, the table is the sum of the tables of the known
files, each with the content that the file had when it was added.
-/

namespace KifuRatings.Scorebook

variable {ε : Type}

inductive Operation where
  | takeInput (route : Bytes) (recursive : Bool)
  | takeDirectory (route : Bytes) (recursive : Bool)
  | takeFile (route : Bytes)
  | clear
deriving DecidableEq, Repr

structure Use where
  files : FileSystem
  operation : Operation

/-- The scorebook that an operation leaves, which is the old one if it is refused. -/
def kept (book : Scorebook) : Except InputError Progress → Scorebook
  | .ok progress => progress.book
  | .error _ => book

def apply (reader : OutcomeReader ε) (book : Scorebook) (use : Use) : Scorebook :=
  match use.operation with
  | .takeInput route recursive => book.kept (takeInput reader use.files book route recursive)
  | .takeDirectory route recursive =>
      book.kept (takeDirectory reader use.files book route recursive)
  | .takeFile route => book.kept (takeFile reader use.files book route)
  | .clear => book.clear

def after (reader : OutcomeReader ε) (range : KomiRange) (uses : List Use) : Scorebook :=
  uses.foldl (apply reader) (empty range)

def Use.Reaches (use : Use) (form : RecordForm) (path : Path) : Prop :=
  match use.operation with
  | .takeInput route recursive => use.files.Reaches route recursive form path
  | .takeDirectory route recursive => use.files.Finds route recursive form path
  | .takeFile route => use.files.Names route form path
  | .clear => False

/-- A file was added while the files were these: the operation made it known, and it has been
known after every operation since then. -/
def AddedWith (reader : OutcomeReader ε) (range : KomiRange) (uses : List Use)
    (file : RecordForm × Path) (files : FileSystem) : Prop :=
  ∃ earlier operation later, uses = earlier ++ ⟨files, operation⟩ :: later ∧
    file ∉ (after reader range earlier).known ∧
    ∀ since, since <+: later →
      file ∈ (after reader range (earlier ++ ⟨files, operation⟩ :: since)).known

/-- The table is the sum of the tables of the known files, each read with its own files. -/
def Coupled (reader : OutcomeReader ε) (origin : RecordForm × Path → FileSystem)
    (book : Scorebook) : Prop :=
  book.table = (book.known.toList.map fun file =>
    Crosstable.ofGames (gamesAt reader (origin file) file.1 file.2)).sum

section Step

variable {reader : OutcomeReader ε} {book : Scorebook}

/-- New files that were not known and that something reaches. -/
def Fresh (book : Scorebook) (reaches : RecordForm → Path → Prop) (new : RecordFiles) : Prop :=
  ∀ form path, (form, path) ∈ new ↔ book.known.contains path = false ∧ reaches form path

theorem kept_takes {files : FileSystem} {taken : Except InputError Progress}
    {reaches : RecordForm → Path → Prop}
    (accepts : ∀ progress, taken = .ok progress →
      ∃ new, Takes reader files book new progress ∧ book.Fresh reaches new)
    (refuses : ∀ cause, taken = .error cause → ∀ form path, ¬reaches form path) :
    ∃ new progress, Takes reader files book new progress ∧ book.kept taken = progress.book ∧
      book.Fresh reaches new := by
  cases taken with
  | ok progress =>
      obtain ⟨new, takes, fresh⟩ := accepts progress rfl
      exact ⟨new, progress, takes, rfl, fresh⟩
  | error cause =>
      refine ⟨RecordFiles.empty, ⟨book, .zero, []⟩, takes_nothing [], rfl, ?_⟩
      intro form path
      simp [refuses cause rfl form path]

theorem apply_cases (reader : OutcomeReader ε) (book : Scorebook) (use : Use) :
    (use.operation = .clear ∧ apply reader book use = book.clear) ∨
      (use.operation ≠ .clear ∧ ∃ new progress, Takes reader use.files book new progress ∧
        apply reader book use = progress.book ∧ book.Fresh use.Reaches new) := by
  obtain ⟨files, operation⟩ := use
  cases operation with
  | takeInput route recursive =>
      refine .inr ⟨by simp, kept_takes ?_ ?_⟩
      · intro progress taken
        exact take_input_eq_ok taken
      · intro cause refused
        exact take_input_eq_error refused
  | takeDirectory route recursive =>
      refine .inr ⟨by simp, kept_takes ?_ ?_⟩
      · intro progress taken
        exact take_directory_eq_ok taken
      · intro cause refused
        exact take_directory_eq_error refused
  | takeFile route =>
      refine .inr ⟨by simp, kept_takes ?_ ?_⟩
      · intro progress taken
        exact take_file_eq_ok taken
      · intro cause refused
        exact take_file_eq_error refused
  | clear => exact .inl ⟨rfl, rfl⟩

/-- An operation adds what it reaches and what is unknown, or clears everything. -/
theorem mem_apply (reader : OutcomeReader ε) (book : Scorebook) (use : Use) (form : RecordForm)
    (path : Path) :
    (form, path) ∈ (apply reader book use).known ↔
      (use.operation ≠ .clear ∧ (form, path) ∈ book.known) ∨
        (book.known.contains path = false ∧ use.Reaches form path) := by
  rcases apply_cases reader book use with
    ⟨clears, cleared⟩ | ⟨keeps, new, progress, takes, taken, fresh⟩
  · rw [cleared]
    simp [clear, empty, clears, Use.Reaches]
  · rw [taken, takes.known, RecordFiles.mem_union, fresh]
    simp [keeps]

theorem coupled_empty (origin : RecordForm × Path → FileSystem) (range : KomiRange) :
    Coupled reader origin (empty range) := rfl

/-- Taking new files keeps the coupling, with these files as the origin of the new ones. -/
theorem coupled_takes {files : FileSystem} {new : RecordFiles} {progress : Progress}
    {origin next : RecordForm × Path → FileSystem} (takes : Takes reader files book new progress)
    (coupled : Coupled reader origin book) (old : ∀ file ∈ book.known, next file = origin file)
    (added : ∀ file ∈ new, next file = files) : Coupled reader next progress.book := by
  have sameOld : (book.known.toList.map fun file =>
      Crosstable.ofGames (gamesAt reader (next file) file.1 file.2)) =
      book.known.toList.map fun file =>
        Crosstable.ofGames (gamesAt reader (origin file) file.1 file.2) := by
    apply List.map_congr_left
    intro file member
    rw [old file (RecordFiles.mem_to_list.mp member)]
  have sameNew : (new.toList.map fun file =>
      Crosstable.ofGames (gamesAt reader (next file) file.1 file.2)) =
      new.toList.map fun file => Crosstable.ofGames (gamesAt reader files file.1 file.2) := by
    apply List.map_congr_left
    intro file member
    rw [added file (RecordFiles.mem_to_list.mp member)]
  unfold Coupled
  rw [takes.known, RecordFiles.sum_union _ (new_not_known takes), sameOld, sameNew, ← coupled,
    takes.table, gamesOf, Crosstable.of_games_flat_map]

end Step

section Run

variable {reader : OutcomeReader ε} {range : KomiRange} {uses : List Use}
  {file : RecordForm × Path} {files : FileSystem}

theorem after_append_one (use : Use) :
    after reader range (uses ++ [use]) = apply reader (after reader range uses) use := by
  rw [after, List.foldl_append]
  rfl

theorem added_now {use : Use} (unknown : file ∉ (after reader range uses).known)
    (known : file ∈ (after reader range (uses ++ [use])).known) :
    AddedWith reader range (uses ++ [use]) file use.files := by
  refine ⟨uses, use.operation, [], rfl, unknown, ?_⟩
  intro since short
  rw [List.prefix_nil.mp short]
  exact known

theorem added_before (use : Use) (added : AddedWith reader range uses file files)
    (known : file ∈ (after reader range (uses ++ [use])).known) :
    AddedWith reader range (uses ++ [use]) file files := by
  obtain ⟨earlier, operation, later, rfl, unknown, ever⟩ := added
  refine ⟨earlier, operation, later ++ [use], by simp, unknown, ?_⟩
  intro since short
  rcases List.prefix_concat_iff.mp short with rfl | short
  · simpa using known
  · exact ever since short

theorem added_with_unique {others : FileSystem} (added : AddedWith reader range uses file files)
    (again : AddedWith reader range uses file others) : files = others := by
  obtain ⟨earlier, operation, later, rfl, unknown, ever⟩ := added
  obtain ⟨before, other, next, split, unknownBefore, everBefore⟩ := again
  rcases List.append_eq_append_iff.mp split with ⟨between, rfl, rest⟩ | ⟨between, rfl, rest⟩
  · cases between with
    | nil => simp_all
    | cons first between =>
        obtain ⟨rfl, rfl⟩ := List.cons.inj rest
        exact absurd (ever between (List.prefix_append _ _)) unknownBefore
  · cases between with
    | nil => simp_all
    | cons first between =>
        obtain ⟨rfl, rfl⟩ := List.cons.inj rest
        exact absurd (everBefore between (List.prefix_append _ _)) unknown

open Classical in
noncomputable def originAfter (origin : RecordForm × Path → FileSystem) (use : Use)
    (new : RecordFiles) (file : RecordForm × Path) : FileSystem :=
  if file ∈ new then use.files else origin file

theorem added_after {origin : RecordForm × Path → FileSystem} {use : Use} {new : RecordFiles}
    {progress : Progress} (takes : Takes reader use.files (after reader range uses) new progress)
    (taken : apply reader (after reader range uses) use = progress.book)
    (added : ∀ file ∈ (after reader range uses).known,
      AddedWith reader range uses file (origin file)) :
    ∀ file ∈ (after reader range (uses ++ [use])).known,
      AddedWith reader range (uses ++ [use]) file (originAfter origin use new file) := by
  intro file member
  by_cases isNew : file ∈ new
  · rw [originAfter, if_pos isNew]
    exact added_now (new_not_known takes file isNew) member
  · rw [originAfter, if_neg isNew]
    apply added_before use (added file ?_) member
    rw [after_append_one, taken, takes.known] at member
    exact (RecordFiles.mem_union.mp member).resolve_right isNew

theorem coupled_step {origin : RecordForm × Path → FileSystem} (use : Use)
    (added : ∀ file ∈ (after reader range uses).known,
      AddedWith reader range uses file (origin file))
    (coupled : Coupled reader origin (after reader range uses)) :
    ∃ next : RecordForm × Path → FileSystem,
      (∀ file ∈ (after reader range (uses ++ [use])).known,
        AddedWith reader range (uses ++ [use]) file (next file)) ∧
      Coupled reader next (after reader range (uses ++ [use])) := by
  rcases apply_cases reader (after reader range uses) use with
    ⟨_, cleared⟩ | ⟨_, new, progress, takes, taken, _⟩
  · refine ⟨origin, ?_, ?_⟩
    · intro file known
      rw [after_append_one, cleared] at known
      exact absurd known (RecordFiles.not_mem_empty file)
    · rw [after_append_one, cleared]
      exact coupled_empty origin _
  · refine ⟨originAfter origin use new, added_after takes taken added, ?_⟩
    rw [after_append_one, taken]
    apply coupled_takes takes coupled
    · intro file old
      exact if_neg fun isNew => new_not_known takes file isNew old
    · intro file isNew
      exact if_pos isNew

theorem coupled_after (reader : OutcomeReader ε) (range : KomiRange) (uses : List Use) :
    ∃ origin : RecordForm × Path → FileSystem,
      (∀ file ∈ (after reader range uses).known, AddedWith reader range uses file (origin file)) ∧
      Coupled reader origin (after reader range uses) := by
  induction uses using List.reverseRecOn with
  | nil =>
      refine ⟨fun _ => ⟨∅, []⟩, ?_, coupled_empty _ range⟩
      intro file known
      exact absurd known (RecordFiles.not_mem_empty file)
  | append_singleton uses use induction =>
      obtain ⟨origin, added, coupled⟩ := induction
      exact coupled_step use added coupled

end Run

/-- Whatever is done with a scorebook, its table is the sum of the tables of the known files:
of those of lines with their lines read as records, and of those that are one record. Each is
read with the files as they were when it was added, which happened at one moment. Another
operation makes known what it reaches and what is unknown; clearing empties the table and the
known files together. -/
theorem table_follows_known_files (reader : OutcomeReader ε) (range : KomiRange)
    (uses : List Use) :
    ∃ origin : RecordForm × Path → FileSystem,
      (∀ file ∈ (after reader range uses).known, ∀ files,
        AddedWith reader range uses file files ↔ files = origin file) ∧
      (after reader range uses).table =
        ((after reader range uses).known.lines.toList.map fun path =>
          Crosstable.ofGames (gamesAt reader (origin (.lines, path)) .lines path)).sum +
        ((after reader range uses).known.whole.toList.map fun path =>
          Crosstable.ofGames (gamesAt reader (origin (.whole, path)) .whole path)).sum ∧
      (∀ use form path, (form, path) ∈ (after reader range (uses ++ [use])).known ↔
        (use.operation ≠ .clear ∧ (form, path) ∈ (after reader range uses).known) ∨
          ((after reader range uses).known.contains path = false ∧ use.Reaches form path)) ∧
      ∀ files,
        (after reader range (uses ++ [⟨files, .clear⟩])).known = RecordFiles.empty ∧
        (after reader range (uses ++ [⟨files, .clear⟩])).table = Crosstable.empty := by
  obtain ⟨origin, added, coupled⟩ := coupled_after reader range uses
  refine ⟨origin, ?_, ?_, ?_, ?_⟩
  · intro file known files
    constructor
    · intro isAdded
      exact added_with_unique isAdded (added file known)
    · intro same
      subst same
      exact added file known
  · rw [coupled, RecordFiles.toList, List.map_append, List.sum_append, List.map_map, List.map_map]
    rfl
  · intro use form path
    rw [after_append_one]
    exact mem_apply reader _ use form path
  · intro files
    rw [after_append_one]
    exact ⟨rfl, rfl⟩

end KifuRatings.Scorebook
