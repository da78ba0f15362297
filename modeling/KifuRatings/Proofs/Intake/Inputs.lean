import KifuRatings.CommandLine.Run
import KifuRatings.Proofs.Intake.Told

/-!
# Inputs count as a set

Inputs may overlap: a directory and one inside it, a file and its directory, one file by two
routes. Which input takes in a file depends on their order, but what all of them come to does
not, as long as every name tells the same form as the path that it leads to.
-/

namespace KifuRatings

theorem FileSystem.form_of_reaches {files : FileSystem} (agree : files.FormsAgree)
    {route : Bytes} {recursive : Bool} {form : RecordForm} {path : Path}
    (reached : files.Reaches route recursive form path) : RecordForm.ofPath path = some form := by
  rcases reached with found | named
  · exact form_of_finds agree found
  · exact form_of_names agree named

namespace Run

open Scorebook

/-- What taking in inputs comes to, told by the files that any of them reaches. -/
structure Gathers (files : FileSystem) (recursive : Bool) (range : KomiRange)
    (inputs : List Bytes) (collected : Collected) : Prop where
  known : ∀ form path, (form, path) ∈ collected.book.known ↔
    ∃ input ∈ inputs, files.Reaches input recursive form path
  table : collected.book.table = (collected.book.known.toList.map fun file =>
    Crosstable.ofGames (gamesAt .gameRecord files file.1 file.2)).sum
  nonstandard : collected.book.nonstandard = true ↔
    ∃ file ∈ collected.book.known, ∃ game ∈ gamesAt .gameRecord files file.1 file.2,
      isNonstandard range game = true
  komiRange : collected.book.komiRange = range
  count : collected.count = (collected.book.known.toList.map fun file =>
    countAt .gameRecord files file.1 file.2).sum

variable {files : FileSystem} {recursive : Bool} {range : KomiRange} {inputs : List Bytes}
  {collected : Collected}

theorem gathers_of_told (told : Told .gameRecord files range collected.book collected.count)
    (known : ∀ form path, (form, path) ∈ collected.book.known ↔
      ∃ input ∈ inputs, files.Reaches input recursive form path) :
    Gathers files recursive range inputs collected :=
  ⟨known, told.table, told.nonstandard, told.komiRange, told.count⟩

theorem told_of_gathers (gathers : Gathers files recursive range inputs collected) :
    Told .gameRecord files range collected.book collected.count :=
  ⟨gathers.table, gathers.nonstandard, gathers.komiRange, gathers.count⟩

theorem gathers_nothing (files : FileSystem) (recursive : Bool) (range : KomiRange) :
    Gathers files recursive range [] ⟨Scorebook.empty range, .zero, [], []⟩ := by
  apply gathers_of_told (told_nothing .gameRecord files range)
  intro form path
  exact iff_of_false (RecordFiles.not_mem_empty _) (by simp)

theorem known_in_form (agree : files.FormsAgree)
    (gathers : Gathers files recursive range inputs collected) {input : Bytes}
    {form : RecordForm} {path : Path} (known : collected.book.known.contains path = true)
    (reached : files.Reaches input recursive form path) :
    (form, path) ∈ collected.book.known := by
  apply RecordFiles.mem_of_contains _ (FileSystem.form_of_reaches agree reached) known
  intro told member
  obtain ⟨_, _, before⟩ := (gathers.known told path).mp member
  exact FileSystem.form_of_reaches agree before

theorem known_after_input (agree : files.FormsAgree)
    (gathers : Gathers files recursive range inputs collected) {input : Bytes}
    {new : RecordFiles}
    (isNew : ∀ form path, (form, path) ∈ new ↔
      collected.book.known.contains path = false ∧ files.Reaches input recursive form path)
    (form : RecordForm) (path : Path) :
    (form, path) ∈ collected.book.known.union new ↔
      ∃ other ∈ inputs ++ [input], files.Reaches other recursive form path := by
  rw [RecordFiles.mem_union_unknown (isNew form path) (known_in_form agree gathers),
    gathers.known]
  simp [or_and_right, exists_or]

theorem gathers_input (agree : files.FormsAgree)
    (gathers : Gathers files recursive range inputs collected) (input : Bytes) :
    Gathers files recursive range (inputs ++ [input])
      (take files recursive collected input) := by
  unfold take
  cases taken : collected.book.takeInput .gameRecord files input recursive with
  | error cause =>
      have nothing := take_input_eq_error taken
      refine ⟨?_, gathers.table, gathers.nonstandard, gathers.komiRange, gathers.count⟩
      intro form path
      rw [gathers.known]
      simp [or_and_right, exists_or, nothing form path]
  | ok progress =>
      obtain ⟨new, takes, isNew⟩ := take_input_eq_ok taken
      apply gathers_of_told (told_takes (told_of_gathers gathers) takes)
      rw [takes.known]
      exact known_after_input agree gathers isNew

theorem collect_gathers (agree : files.FormsAgree) (settings : Settings) (range : KomiRange) :
    Gathers files settings.recursive range settings.inputs (collect files settings range) := by
  unfold collect
  induction settings.inputs using List.reverseRecOn with
  | nil => exact gathers_nothing files settings.recursive range
  | append_singleton inputs input induction =>
      rw [List.foldl_append]
      exact gathers_input agree induction input

theorem gathers_unique {others : List Bytes} {other : Collected}
    (gathers : Gathers files recursive range inputs collected)
    (gathersOther : Gathers files recursive range others other)
    (same : ∀ input, input ∈ others ↔ input ∈ inputs) :
    other.book = collected.book ∧ other.count = collected.count := by
  have known : other.book.known = collected.book.known := by
    apply RecordFiles.ext_file
    intro file
    rcases file with ⟨form, path⟩
    simp only [gathers.known, gathersOther.known, same]
  exact told_unique (told_of_gathers gathers) (told_of_gathers gathersOther) known

theorem known_paths_nodup (agree : files.FormsAgree)
    (gathers : Gathers files recursive range inputs collected) :
    (collected.book.known.toList.map (·.2)).Nodup := by
  refine List.Nodup.map_on ?_ (RecordFiles.to_list_nodup _)
  intro file member other again same
  rcases file with ⟨form, path⟩
  rcases other with ⟨told, place⟩
  subst same
  obtain ⟨_, _, reached⟩ := (gathers.known form path).mp (RecordFiles.mem_to_list.mp member)
  obtain ⟨_, _, reachedAgain⟩ := (gathers.known told path).mp (RecordFiles.mem_to_list.mp again)
  have isForm := FileSystem.form_of_reaches agree reached
  rw [FileSystem.form_of_reaches agree reachedAgain] at isForm
  rw [Option.some.inj isForm]

/-- A game in a directory, and a file with a game and a line that is none beside it. -/
def nested : FileSystem where
  entries := (((∅ : Std.ExtTreeMap Path Entry Path.order).insert ["d"] .directory).insert
    ["d", "b.sgf"] (.file (Utf8.encode "(;PB[a]PW[b]RE[B+R]HA[2])"))).insert
    ["c.sgfs"] (.file (Utf8.encode "(;PB[b]PW[a]RE[W+1])\nx"))
  workingDirectory := []

theorem nested_linkless : nested.Linkless := by
  intro path text
  unfold FileSystem.lookup nested
  simp only [Std.ExtTreeMap.getElem?_insert, Std.ExtTreeMap.getElem?_empty]
  split_ifs <;> simp

def takeNested (inputs : List Bytes) : Collected :=
  collect nested { Settings.default with inputs, recursive := true } .standard

end Run

end KifuRatings
