import KifuRatings.Proofs.Intake.Search
import Mathlib.Data.List.Dedup
import Mathlib.Data.List.Induction

/-!
# When a file is known in one form

A path is stored without links, but the form is told by the name under which the file is
found. A link may tell another form than the file it leads to, and one search may find a file
under names of both forms. So a file is known once and in its own form exactly when the names
under which it was found say so.
-/

namespace KifuRatings.RecordFiles

/-- What can be done with a set of known files. -/
inductive Move where
  | search (files : FileSystem) (route : Bytes) (recursive : Bool)
  | accept (files : FileSystem) (route : Bytes)
  | forget

def Move.Reaches (move : Move) (form : RecordForm) (path : Path) : Prop :=
  match move with
  | .search files route recursive => files.Finds route recursive form path
  | .accept files route => files.Names route form path
  | .forget => False

/-- The names and the paths in the files of a move agree. -/
def Move.Agrees (move : Move) : Prop :=
  match move with
  | .search files _ _ => files.FormsAgree
  | .accept files _ => files.FormsAgree
  | .forget => True

/-- The known files after a move. A refused one changes nothing. -/
def step (known : RecordFiles) (move : Move) : RecordFiles :=
  match move with
  | .search files route recursive =>
      match known.search files route recursive with
      | .ok (after, _, _) => after
      | .error _ => known
  | .accept files route =>
      match known.accept files route with
      | .ok (after, _, _) => after
      | .error _ => known
  | .forget => empty

def after (moves : List Move) : RecordFiles := moves.foldl step empty

/-- A move that followed these earlier ones, with nothing forgotten since then. -/
def MadeSince (moves earlier : List Move) (move : Move) : Prop :=
  ∃ later, moves = earlier ++ move :: later ∧ Move.forget ∉ later

/-- No path is known in two forms. -/
def Separate (known : RecordFiles) : Prop :=
  ∀ path, ¬((.lines, path) ∈ known ∧ (.whole, path) ∈ known)

/-- Every path is known in the form that its own last name tells. -/
def OwnForms (known : RecordFiles) : Prop :=
  ∀ form path, (form, path) ∈ known → RecordForm.ofPath path = some form

def ReachesOnce (known : RecordFiles) (move : Move) : Prop :=
  ∀ path, known.contains path = false → ¬(move.Reaches .lines path ∧ move.Reaches .whole path)

def ReachesOwnForms (known : RecordFiles) (move : Move) : Prop :=
  ∀ form path, known.contains path = false → move.Reaches form path →
    RecordForm.ofPath path = some form

variable {known : RecordFiles}

/-! ## One set of files -/

theorem separate_of_own_forms (own : known.OwnForms) : known.Separate := by
  intro path both
  rcases both with ⟨lines, whole⟩
  have told := own _ _ lines
  rw [own _ _ whole] at told
  simp at told

theorem paths_nodup_iff_separate (known : RecordFiles) :
    (known.toList.map (·.2)).Nodup ↔ known.Separate := by
  constructor
  · intro nodup path both
    rcases both with ⟨lines, whole⟩
    have same := List.inj_on_of_nodup_map nodup (mem_to_list.mpr lines) (mem_to_list.mpr whole) rfl
    simp at same
  · intro separate
    refine List.Nodup.map_on ?_ (to_list_nodup known)
    intro file member other memberToo same
    rcases file with ⟨form, path⟩
    rcases other with ⟨other, place⟩
    subst same
    rw [mem_to_list] at member memberToo
    cases form <;> cases other
    · rfl
    · exact absurd ⟨member, memberToo⟩ (separate path)
    · exact absurd ⟨memberToo, member⟩ (separate path)
    · rfl

theorem size_eq_length (known : RecordFiles) : known.size = (known.toList.map (·.2)).length := by
  simp [size, toList, Std.ExtTreeSet.length_toList]

theorem size_eq_paths_iff_separate (known : RecordFiles) :
    known.size = (known.toList.map (·.2)).dedup.length ↔ known.Separate := by
  rw [← paths_nodup_iff_separate, size_eq_length]
  constructor
  · intro same
    rw [← (List.dedup_sublist _).eq_of_length same.symm]
    exact List.nodup_dedup _
  · intro nodup
    rw [nodup.dedup]

/-! ## One move -/

theorem move_reaches_own_form {move : Move} (agrees : move.Agrees) (known : RecordFiles) :
    known.ReachesOwnForms move := by
  intro form path _ reached
  cases move with
  | search files route recursive => exact FileSystem.form_of_finds agrees reached
  | accept files route => exact FileSystem.form_of_names agrees reached
  | forget => exact False.elim reached

/-- A move adds what it reaches and what is unknown, or forgets everything. -/
theorem mem_step {move : Move} {form : RecordForm} {path : Path} :
    (form, path) ∈ known.step move ↔
      (move ≠ .forget ∧ (form, path) ∈ known) ∨
        (known.contains path = false ∧ move.Reaches form path) := by
  cases move with
  | search files route recursive =>
      unfold step Move.Reaches
      cases searched : known.search files route recursive with
      | error cause => simp [searched, search_eq_error searched form path]
      | ok result =>
          obtain ⟨after, new, event⟩ := result
          obtain ⟨rfl, isNew⟩ := search_eq_ok searched
          simp [searched, isNew]
  | accept files route =>
      unfold step Move.Reaches
      cases isAccepted : known.accept files route with
      | error cause => simp [isAccepted, accept_eq_error isAccepted form path]
      | ok result =>
          obtain ⟨after, told, target⟩ := result
          obtain ⟨rfl, isNew⟩ := accept_eq_ok isAccepted
          simp [isAccepted, isNew]
  | forget => simp [step, Move.Reaches]

theorem separate_step_iff (known : RecordFiles) (move : Move) :
    (known.step move).Separate ↔
      (move = .forget ∨ known.Separate) ∧ known.ReachesOnce move := by
  constructor
  · intro separate
    constructor
    · by_cases forgets : move = .forget
      · exact .inl forgets
      · refine .inr fun path both => separate path ?_
        exact ⟨mem_step.mpr (.inl ⟨forgets, both.1⟩), mem_step.mpr (.inl ⟨forgets, both.2⟩)⟩
    · intro path unknown both
      exact separate path
        ⟨mem_step.mpr (.inr ⟨unknown, both.1⟩), mem_step.mpr (.inr ⟨unknown, both.2⟩)⟩
  · intro parts path both
    rcases parts with ⟨before, once⟩
    rcases both with ⟨lines, whole⟩
    rcases mem_step.mp lines with ⟨keeps, lines⟩ | ⟨unknown, lines⟩ <;>
      rcases mem_step.mp whole with ⟨_, whole⟩ | ⟨unknownToo, whole⟩
    · exact before.resolve_left keeps path ⟨lines, whole⟩
    · exact not_mem_of_unknown unknownToo _ lines
    · exact not_mem_of_unknown unknown _ whole
    · exact once path unknown ⟨lines, whole⟩

theorem own_forms_step_iff (known : RecordFiles) (move : Move) :
    (known.step move).OwnForms ↔
      (move = .forget ∨ known.OwnForms) ∧ known.ReachesOwnForms move := by
  constructor
  · intro own
    constructor
    · by_cases forgets : move = .forget
      · exact .inl forgets
      · exact .inr fun form path member => own form path (mem_step.mpr (.inl ⟨forgets, member⟩))
    · intro form path unknown reached
      exact own form path (mem_step.mpr (.inr ⟨unknown, reached⟩))
  · intro parts form path member
    rcases parts with ⟨before, own⟩
    rcases mem_step.mp member with ⟨keeps, member⟩ | ⟨unknown, reached⟩
    · exact before.resolve_left keeps form path member
    · exact own form path unknown reached

/-! ## A run of moves -/

theorem after_append_one (moves : List Move) (last : Move) :
    after (moves ++ [last]) = (after moves).step last := by
  rw [after, List.foldl_append]
  rfl

theorem made_since_append_one {moves earlier : List Move} {last move : Move} :
    MadeSince (moves ++ [last]) earlier move ↔
      (earlier = moves ∧ move = last) ∨ (last ≠ .forget ∧ MadeSince moves earlier move) := by
  constructor
  · intro made
    rcases made with ⟨later, split, kept⟩
    rcases List.eq_nil_or_concat later with rfl | ⟨later, final, rfl⟩
    · obtain ⟨rfl, same⟩ := List.append_inj' split rfl
      exact .inl ⟨rfl, (List.singleton_inj.mp same).symm⟩
    · rw [List.concat_eq_append, ← List.cons_append, ← List.append_assoc] at split
      obtain ⟨rfl, same⟩ := List.append_inj' split rfl
      obtain rfl := List.singleton_inj.mp same
      rw [List.concat_eq_append, List.mem_append, not_or] at kept
      refine .inr ⟨?_, later, rfl, kept.1⟩
      intro forgets
      subst forgets
      simp at kept
  · intro either
    rcases either with ⟨rfl, rfl⟩ | ⟨keeps, later, rfl, kept⟩
    · exact ⟨[], rfl, by simp⟩
    · refine ⟨later ++ [last], by simp, ?_⟩
      simp only [List.mem_append, List.mem_singleton, not_or]
      exact ⟨kept, keeps.symm⟩

/-- What every move has to allow, and forgetting restores, holds after a run if and only if
the moves since the last forgetting allow it. -/
theorem holds_after_iff {holds : RecordFiles → Prop} {allows : RecordFiles → Move → Prop}
    (start : holds empty)
    (one : ∀ known move, holds (known.step move) ↔
      (move = .forget ∨ holds known) ∧ allows known move) (moves : List Move) :
    holds (after moves) ↔
      ∀ earlier move, MadeSince moves earlier move → allows (after earlier) move := by
  induction moves using List.reverseRecOn with
  | nil =>
      apply iff_of_true start
      intro earlier move made
      rcases made with ⟨later, split, _⟩
      simp at split
  | append_singleton moves last induction =>
      rw [after_append_one, one, induction]
      constructor
      · intro parts earlier move made
        rcases parts with ⟨before, now⟩
        rcases made_since_append_one.mp made with ⟨rfl, rfl⟩ | ⟨keeps, made⟩
        · exact now
        · exact before.resolve_left keeps earlier move made
      · intro always
        refine ⟨?_, always moves last (made_since_append_one.mpr (.inl ⟨rfl, rfl⟩))⟩
        by_cases forgets : last = .forget
        · exact .inl forgets
        · refine .inr fun earlier move made => always earlier move ?_
          exact made_since_append_one.mpr (.inr ⟨forgets, made⟩)

theorem separate_after_iff (moves : List Move) :
    (after moves).Separate ↔
      ∀ earlier move, MadeSince moves earlier move → (after earlier).ReachesOnce move :=
  holds_after_iff (fun _ both => not_mem_empty _ both.1) separate_step_iff moves

theorem own_forms_after_iff (moves : List Move) :
    (after moves).OwnForms ↔
      ∀ earlier move, MadeSince moves earlier move → (after earlier).ReachesOwnForms move :=
  holds_after_iff (fun _ _ member => absurd member (not_mem_empty _)) own_forms_step_iff moves

/-! ## What a search finds -/

theorem found_separate_iff {files : FileSystem} {route : Bytes} {recursive : Bool}
    {found new : RecordFiles} {event : Event}
    (searched : known.search files route recursive = .ok (found, new, event)) :
    new.Separate ↔ known.ReachesOnce (.search files route recursive) := by
  obtain ⟨_, isNew⟩ := search_eq_ok searched
  simp only [Separate, ReachesOnce, Move.Reaches, isNew]
  constructor
  · intro separate path unknown both
    exact separate path ⟨⟨unknown, both.1⟩, ⟨unknown, both.2⟩⟩
  · intro once path both
    rcases both with ⟨⟨unknown, lines⟩, ⟨_, whole⟩⟩
    exact once path unknown ⟨lines, whole⟩

theorem found_own_forms_iff {files : FileSystem} {route : Bytes} {recursive : Bool}
    {found new : RecordFiles} {event : Event}
    (searched : known.search files route recursive = .ok (found, new, event)) :
    new.OwnForms ↔ known.ReachesOwnForms (.search files route recursive) := by
  obtain ⟨_, isNew⟩ := search_eq_ok searched
  simp only [OwnForms, ReachesOwnForms, Move.Reaches, isNew, and_imp]

/-- When known files are known once and in their own forms. Both depend on the moves since
everything was forgotten: none may have reached an unknown path in two forms, or in a form
that the path does not tell. The same holds of the files that a search finds, and a set of
files is read without reading a path twice exactly if it is separate. Where names and paths
agree, as they do without links, nothing of this goes wrong. -/
theorem known_once_iff (moves : List Move) :
    ((after moves).Separate ↔
      ∀ earlier move, MadeSince moves earlier move → (after earlier).ReachesOnce move) ∧
    ((after moves).OwnForms ↔
      ∀ earlier move, MadeSince moves earlier move → (after earlier).ReachesOwnForms move) ∧
    ((after moves).OwnForms → (after moves).Separate) ∧
    ((after moves).size = ((after moves).toList.map (·.2)).dedup.length ↔
      (after moves).Separate) ∧
    (∀ files route recursive found new event,
      (after moves).search files route recursive = .ok (found, new, event) →
        (new.Separate ↔ (after moves).ReachesOnce (.search files route recursive)) ∧
        (new.OwnForms ↔ (after moves).ReachesOwnForms (.search files route recursive)) ∧
        ((new.toList.map (·.2)).Nodup ↔ new.Separate)) ∧
    ((∀ move ∈ moves, move.Agrees) → (after moves).OwnForms) ∧
    ∀ move : Move, move.Agrees → (after moves).ReachesOwnForms move := by
  refine ⟨separate_after_iff moves, own_forms_after_iff moves, separate_of_own_forms,
    size_eq_paths_iff_separate _, ?_, ?_, fun move agrees => move_reaches_own_form agrees _⟩
  · intro files route recursive found new event searched
    exact ⟨found_separate_iff searched, found_own_forms_iff searched, paths_nodup_iff_separate new⟩
  · intro agrees
    rw [own_forms_after_iff]
    intro earlier move made
    rcases made with ⟨later, rfl, _⟩
    exact move_reaches_own_form (agrees move (by simp)) _

/-- A file, and a link to it whose name tells the other form. -/
def linked : FileSystem where
  entries := Std.ExtTreeMap.ofList
    ([(["b.sgf"], .file []), (["a.sgfs"], .link "b.sgf")] : List (Path × Entry)) Path.order
  workingDirectory := []

/-- One search makes a file known twice, once in a form that is not its own. -/
theorem linked_file_is_known_twice :
    ¬(after [.search linked "." false]).Separate ∧
    ¬(after [.search linked "." false]).OwnForms ∧
    (after [.search linked "." false]).size ≠
      ((after [.search linked "." false]).toList.map (·.2)).dedup.length := by
  let path : Path := ["b.sgf"]
  have files : (after [.search linked "." false]).toList = [(.lines, path), (.whole, path)] := by
    decide +kernel
  have lines : (RecordForm.lines, path) ∈ after [.search linked "." false] :=
    mem_to_list.mp (by rw [files]; simp)
  have whole : (RecordForm.whole, path) ∈ after [.search linked "." false] :=
    mem_to_list.mp (by rw [files]; simp)
  have shared : ¬(after [.search linked "." false]).Separate :=
    fun separate => separate path ⟨lines, whole⟩
  exact ⟨shared, fun own => shared (separate_of_own_forms own),
    fun same => shared ((size_eq_paths_iff_separate _).mp same)⟩

end KifuRatings.RecordFiles
