import KifuRatings.Proofs.Intake.Coupling
import KifuRatings.Proofs.Intake.Refusals

/-!
# Adding again changes nothing

What an input reaches is known after the input was taken in, in one form or the other, and only
clearing forgets it. As long as the files stay as they are, the same input therefore reaches
nothing that is new, whatever else is taken in before it comes again, and neither does an input
that reaches less.
-/

namespace KifuRatings

/-- A search of a directory alone finds what a search of everything below it finds. -/
theorem FileSystem.reaches_with_more {files : FileSystem} {route : Bytes} {less more : Bool}
    (covers : less = true → more = true) {form : RecordForm} {path : Path}
    (reached : files.Reaches route less form path) : files.Reaches route more form path := by
  rcases reached with found | named
  · obtain ⟨directory, name, resolved, isDirectory, ⟨links, place, scanned, lies⟩, isForm⟩ := found
    obtain ⟨file, between, left, direct, followed⟩ := lies
    refine .inl ⟨directory, name, resolved, isDirectory, ⟨links, place, scanned, ?_⟩, isForm⟩
    refine ⟨file, between, left, ?_, followed⟩
    intro flat
    apply direct
    cases less with
    | false => rfl
    | true => exact absurd (covers rfl) (by simp [flat])
  · exact .inr named

namespace Scorebook

variable {ε : Type} {reader : OutcomeReader ε} {files : FileSystem} {book : Scorebook}

theorem takes_unique {new : RecordFiles} {progress other : Progress}
    (takes : Takes reader files book new progress) (again : Takes reader files book new other) :
    other = ⟨progress.book, progress.count, other.events⟩ := by
  have known := again.known.trans takes.known.symm
  have table := again.table.trans takes.table.symm
  have nonstandard := again.nonstandard.trans takes.nonstandard.symm
  have komiRange := again.komiRange.trans takes.komiRange.symm
  have count := again.count.trans takes.count.symm
  obtain ⟨⟨_, _, _, _⟩, _, _⟩ := progress
  obtain ⟨⟨_, _, _, _⟩, _, _⟩ := other
  simp_all

/-! ## What stays known -/

/-- Operations one after the other on files that stay as they are. A refused one changes
nothing. -/
def performAll (reader : OutcomeReader ε) (files : FileSystem) (book : Scorebook)
    (operations : List Operation) : Scorebook :=
  operations.foldl (fun book operation => apply reader book ⟨files, operation⟩) book

def Retains (book later : Scorebook) : Prop :=
  ∀ path, book.known.contains path = true → later.known.contains path = true

theorem retains_apply (reader : OutcomeReader ε) (book : Scorebook) {use : Use}
    (keeps : use.operation ≠ .clear) : Retains book (apply reader book use) := by
  intro path known
  obtain ⟨form, member⟩ := RecordFiles.contains_iff.mp known
  exact RecordFiles.contains_iff.mpr
    ⟨form, (mem_apply reader book use form path).mpr (.inl ⟨keeps, member⟩)⟩

theorem retains_perform_all (reader : OutcomeReader ε) (files : FileSystem) (book : Scorebook)
    {operations : List Operation} (keeps : .clear ∉ operations) :
    Retains book (performAll reader files book operations) := by
  induction operations generalizing book with
  | nil => exact fun _ known => known
  | cons operation operations induction =>
      rw [List.mem_cons, not_or] at keeps
      intro path known
      have now : Retains book (apply reader book ⟨files, operation⟩) :=
        retains_apply reader book (Ne.symm keeps.1)
      exact induction _ keeps.2 path (now path known)

/-! ## Inputs that reach nothing new -/

def Covers (files : FileSystem) (book : Scorebook) (route : Bytes) (recursive : Bool) : Prop :=
  ∀ form path, files.Reaches route recursive form path → book.known.contains path = true

theorem covers_taken {route : Bytes} {recursive : Bool} {progress : Progress}
    (taken : takeInput reader files book route recursive = .ok progress) :
    Covers files progress.book route recursive := by
  obtain ⟨new, takes, isNew⟩ := take_input_eq_ok taken
  intro form path reached
  rw [takes.known]
  cases known : book.known.contains path with
  | true =>
      obtain ⟨told, member⟩ := RecordFiles.contains_iff.mp known
      exact RecordFiles.contains_iff.mpr ⟨told, RecordFiles.mem_union.mpr (.inl member)⟩
  | false =>
      have member := (isNew form path).mpr ⟨known, reached⟩
      exact RecordFiles.contains_iff.mpr ⟨form, RecordFiles.mem_union.mpr (.inr member)⟩

theorem covers_later {later : Scorebook} {route : Bytes} {less more : Bool}
    (covers : Covers files book route more) (retains : Retains book later)
    (within : less = true → more = true) : Covers files later route less :=
  fun form path reached =>
    retains path (covers form path (FileSystem.reaches_with_more within reached))

theorem take_covered {route : Bytes} {recursive : Bool}
    (covers : Covers files book route recursive) (accepted : files.refusal? route = none) :
    ∃ events, takeInput reader files book route recursive = .ok ⟨book, .zero, events⟩ := by
  cases taken : takeInput reader files book route recursive with
  | error cause =>
      have refused := (take_input_refused_iff book route recursive cause).mp taken
      rw [accepted] at refused
      cases refused
  | ok progress =>
      obtain ⟨new, takes, isNew⟩ := take_input_eq_ok taken
      have nothing : new = RecordFiles.empty := by
        apply RecordFiles.ext_file
        rintro ⟨form, path⟩
        refine iff_of_false ?_ (RecordFiles.not_mem_empty _)
        intro member
        obtain ⟨unknown, reached⟩ := (isNew form path).mp member
        rw [covers form path reached] at unknown
        cases unknown
      subst nothing
      have same : progress = ⟨book, .zero, progress.events⟩ :=
        takes_unique (takes_nothing []) takes
      exact ⟨progress.events, congrArg Except.ok same⟩

theorem take_known_file {route : Bytes} {path : Path} (resolved : files.resolve route = .ok path)
    (file : files.isFileAt path = true) (known : book.known.contains path = true)
    (isRecord : (RecordForm.ofRoute route).isSome = true) :
    takeFile reader files book route = .ok ⟨book, .zero, [.known path]⟩ := by
  obtain ⟨form, isForm⟩ := Option.isSome_iff_exists.mp isRecord
  unfold takeFile RecordFiles.accept
  simp only [resolved, file, if_true, isForm, known]
  rfl

/-- An input that was taken in can be taken in again after anything but clearing, as long as the
files stay as they are, and so can a directory alone that was searched with all that lies below
it: nothing is counted and the scorebook stays the same. The same holds of every route by which
a known file can be named. -/
theorem adding_again_changes_nothing (reader : OutcomeReader ε) (files : FileSystem)
    (book : Scorebook) (route : Bytes) (recursive : Bool) (progress : Progress)
    (taken : takeInput reader files book route recursive = .ok progress)
    (operations : List Operation) (keeps : .clear ∉ operations) :
    (∀ again : Bool, (again = true → recursive = true) → ∃ events,
      takeInput reader files (performAll reader files progress.book operations) route again =
        .ok ⟨performAll reader files progress.book operations, .zero, events⟩) ∧
    ∀ other path, files.resolve other = .ok path → files.isFileAt path = true →
      (performAll reader files progress.book operations).known.contains path = true →
      (RecordForm.ofRoute other).isSome = true →
        takeFile reader files (performAll reader files progress.book operations) other =
          .ok ⟨performAll reader files progress.book operations, .zero, [.known path]⟩ := by
  have accepted : files.refusal? route = none := by
    rw [Option.eq_none_iff_forall_ne_some]
    intro cause refused
    rw [(take_input_refused_iff book route recursive cause).mpr refused] at taken
    cases taken
  have retains := retains_perform_all reader files progress.book keeps
  constructor
  · intro again within
    exact take_covered (covers_later (covers_taken taken) retains within) accepted
  · intro other path resolved file known isRecord
    exact take_known_file resolved file known isRecord

/-- A directory with a malformed file, a link to this file that tells the other form, and a file
that cannot be read. -/
def tangled : FileSystem where
  entries := Std.ExtTreeMap.ofList
    ([(["d"], .directory), (["d", "b.sgf"], .file [0x78]), (["a.sgfs"], .link "d/b.sgf"),
      (["c.sgf"], .unreadable .isADirectory)] : List (Path × Entry)) Path.order
  workingDirectory := []

/-- One search takes in the linked file in both forms, and nothing is left after that. -/
theorem tangled_files_are_taken_once : ∃ progress,
    takeInput .gameRecord tangled (empty .standard) "." true = .ok progress ∧
    progress.count = ⟨2, 0, 2, 1⟩ ∧
    (∃ events, takeInput .gameRecord tangled
      (performAll .gameRecord tangled progress.book [.takeFile "a.sgfs", .takeDirectory "d" false])
      "." false = .ok ⟨performAll .gameRecord tangled progress.book
        [.takeFile "a.sgfs", .takeDirectory "d" false], .zero, events⟩) ∧
    takeFile .gameRecord tangled (performAll .gameRecord tangled progress.book []) "d/../a.sgfs" =
      .ok ⟨performAll .gameRecord tangled progress.book [], .zero, [.known ["d", "b.sgf"]]⟩ := by
  have counted : (takeInput .gameRecord tangled (empty .standard) "." true).map
      (fun progress => (progress.count, progress.book.known.contains ["d", "b.sgf"])) =
        .ok (⟨2, 0, 2, 1⟩, true) := by decide +kernel
  cases taken : takeInput .gameRecord tangled (empty .standard) "." true with
  | error cause => simp [taken, Except.map] at counted
  | ok progress =>
      obtain ⟨count, known⟩ : progress.count = ⟨2, 0, 2, 1⟩ ∧
          progress.book.known.contains ["d", "b.sgf"] = true := by
        simpa [taken, Except.map] using counted
      obtain ⟨again, _⟩ := adding_again_changes_nothing .gameRecord tangled (empty .standard) "."
        true progress taken [.takeFile "a.sgfs", .takeDirectory "d" false] (by decide)
      obtain ⟨_, named⟩ := adding_again_changes_nothing .gameRecord tangled (empty .standard) "."
        true progress taken [] (by decide)
      exact ⟨progress, rfl, count, again false (by simp),
        named "d/../a.sgfs" ["d", "b.sgf"] (by decide +kernel) (by decide +kernel) known
          (by decide)⟩

end Scorebook

end KifuRatings
