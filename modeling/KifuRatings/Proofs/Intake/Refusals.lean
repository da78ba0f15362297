import KifuRatings.CommandLine.Run
import KifuRatings.Proofs.Intake.Taking

/-!
# Refused operations leave no trace

The operations of a scorebook give a new one or refuse. Here they are carried out in place, step by
step, in the order in which they look at files and change what is known: what was changed before
an error stays changed. Since everything that can be refused is looked at before anything is
changed, they leave the old scorebook when they are refused. Whether an input is refused is told by the
files, so inputs that are refused might as well be left out.
-/

namespace KifuRatings

namespace InPlace

variable {ε σ α : Type}

/-- What is done in place is what the result says: the new state after success, and the old one
after an error. -/
structure Performs (action : EStateM ε σ α) (result : σ → Except ε (α × σ)) : Prop where
  done : ∀ state value after,
    action.run state = .ok value after ↔ result state = .ok (value, after)
  refused : ∀ state cause after,
    action.run state = .error cause after ↔ result state = .error cause ∧ after = state

/-- How an operation ends that leaves the old state if it is refused. -/
def ending (state : σ) : Except ε (α × σ) → EStateM.Result ε σ α
  | .ok (value, after) => .ok value after
  | .error cause => .error cause state

theorem performs_of_run {action : EStateM ε σ α} {result : σ → Except ε (α × σ)}
    (same : ∀ state, action.run state = ending state (result state)) : Performs action result := by
  constructor
  · intro state value after
    rw [same]
    cases result state with
    | ok both => simp [ending, Prod.ext_iff]
    | error cause => simp [ending]
  · intro state cause after
    rw [same]
    cases result state with
    | ok both => simp [ending]
    | error other => simp [ending, eq_comm]

theorem run_of_performs {action : EStateM ε σ α} {result : σ → Except ε (α × σ)}
    (performs : Performs action result) (state : σ) :
    action.run state = ending state (result state) := by
  cases told : result state with
  | ok both => exact (performs.done state both.1 both.2).mpr told
  | error cause => exact (performs.refused state cause state).mpr ⟨told, rfl⟩

/-! ## Searching and naming files -/

def insertAll (new : List (RecordForm × Path)) : EStateM ε RecordFiles Unit :=
  new.forM fun file => modify fun known => known.insert file.1 file.2

def search (files : FileSystem) (directory : Bytes) (recursive : Bool) :
    EStateM InputError RecordFiles (RecordFiles × Event) := do
  match files.resolve directory with
  | .error _ => throw (.missing directory)
  | .ok path => do
      unless files.isDirectoryAt path do throw (.notADirectory directory)
      let new := (← get).unknownIn files path recursive
      insertAll new.toList
      return (new, .found new.lines.size new.whole.size directory)

def accept (files : FileSystem) (route : Bytes) :
    EStateM InputError RecordFiles (Option RecordForm × Path) := do
  match files.resolve route with
  | .error _ => throw (.missing route)
  | .ok path => do
      unless files.isFileAt path do throw (.notAFile route)
      match RecordForm.ofRoute route with
      | none => throw (.notARecordFile route)
      | some form => do
          if (← get).contains path then return (none, path)
          modify fun known => known.insert form path
          return (some form, path)

theorem run_insert_all (new : List (RecordForm × Path)) (known : RecordFiles) :
    (insertAll new : EStateM ε RecordFiles Unit).run known =
      .ok () (new.foldl (fun known file => known.insert file.1 file.2) known) := by
  induction new generalizing known with
  | nil => rfl
  | cons file new induction => exact induction (known.insert file.1 file.2)

theorem mem_insert_all (new : List (RecordForm × Path)) (known : RecordFiles)
    (file : RecordForm × Path) :
    file ∈ new.foldl (fun known file => known.insert file.1 file.2) known ↔
      file ∈ known ∨ file ∈ new := by
  induction new generalizing known with
  | nil => simp
  | cons first new induction =>
      rw [List.foldl_cons, induction, RecordFiles.mem_insert, List.mem_cons]
      tauto

theorem insert_all_eq_union (known new : RecordFiles) :
    new.toList.foldl (fun known file => known.insert file.1 file.2) known = known.union new := by
  apply RecordFiles.ext_file
  intro file
  rw [mem_insert_all, RecordFiles.mem_union, RecordFiles.mem_to_list]

theorem search_performs (files : FileSystem) (directory : Bytes) (recursive : Bool) :
    Performs (search files directory recursive) fun known =>
      (known.search files directory recursive).map fun found => (found.2, found.1) := by
  apply performs_of_run
  intro known
  unfold search RecordFiles.search
  cases files.resolve directory with
  | error cause => rfl
  | ok path =>
      dsimp only
      cases files.isDirectoryAt path with
      | false => rfl
      | true =>
          let new := known.unknownIn files path recursive
          change EStateM.run (insertAll new.toList >>= fun _ =>
            pure (new, Event.found new.lines.size new.whole.size directory)) known = _
          rw [EStateM.run_bind, run_insert_all, insert_all_eq_union]
          rfl

theorem accept_performs (files : FileSystem) (route : Bytes) :
    Performs (accept files route) fun known =>
      (known.accept files route).map fun accepted => (accepted.2, accepted.1) := by
  apply performs_of_run
  intro known
  unfold accept RecordFiles.accept
  cases files.resolve route with
  | error cause => rfl
  | ok path =>
      dsimp only
      cases files.isFileAt path with
      | false => rfl
      | true =>
          cases RecordForm.ofRoute route with
          | none => rfl
          | some form =>
              change EStateM.run (if known.contains path then pure (none, path) else do
                modify fun known => known.insert form path
                return (some form, path)) known = _
              dsimp only
              split
              · rfl
              · rfl

/-! ## Taking in -/

def onKnown (action : EStateM ε RecordFiles α) : EStateM ε Scorebook α := fun book =>
  match action.run book.known with
  | .ok value known => .ok value { book with known }
  | .error cause known => .error cause { book with known }

/-- Reads one record, counts its game, and then looks at its handicap and komi. -/
def enter (reader : OutcomeReader ε) (raw : Bytes) : EStateM ε Scorebook Unit := do
  match reader.read raw with
  | .error cause => throw cause
  | .ok outcome => do
      modify fun book => { book with table := book.table.count outcome }
      if Scorebook.isNonstandard (← get).komiRange outcome then
        modify fun book => { book with nonstandard := true }

def takeFiles {ζ : Type} (reader : OutcomeReader ζ) (files : FileSystem) (new : RecordFiles) :
    EStateM ε Scorebook (IntakeCount × List Event) := do
  let progress := Scorebook.takeFiles reader files (← get) new
  set progress.book
  return (progress.count, progress.events)

variable {ζ : Type} (reader : OutcomeReader ζ) (files : FileSystem)

def takeDirectory (directory : Bytes) (recursive : Bool) :
    EStateM InputError Scorebook (IntakeCount × List Event) := do
  let (new, event) ← onKnown (search files directory recursive)
  let (count, events) ← takeFiles reader files new
  return (count, event :: events)

def takeFile (route : Bytes) : EStateM InputError Scorebook (IntakeCount × List Event) := do
  match ← onKnown (accept files route) with
  | (none, path) => return (.zero, [.known path])
  | (some form, path) => takeFiles reader files (RecordFiles.empty.insert form path)

def takeInput (route : Bytes) (recursive : Bool) :
    EStateM InputError Scorebook (IntakeCount × List Event) :=
  if files.isDirectory route then takeDirectory reader files route recursive
  else takeFile reader files route

/-- What an operation came to, and the scorebook that it leaves. -/
def outcomeOf (progress : Progress) : (IntakeCount × List Event) × Scorebook :=
  ((progress.count, progress.events), progress.book)

theorem run_on_known {action : EStateM ε RecordFiles α}
    {result : RecordFiles → Except ε (α × RecordFiles)} (performs : Performs action result)
    (book : Scorebook) :
    (onKnown action).run book = ending book
      ((result book.known).map fun both => (both.1, { book with known := both.2 })) := by
  change (match action.run book.known with
    | .ok value known => EStateM.Result.ok value { book with known }
    | .error cause known => EStateM.Result.error cause { book with known }) = _
  rw [run_of_performs performs]
  cases result book.known with
  | ok both => rfl
  | error cause => rfl

theorem enter_performs (reader : OutcomeReader ε) (raw : Bytes) :
    Performs (enter reader raw) fun book =>
      (Scorebook.enter reader book raw).map fun after => ((), after) := by
  apply performs_of_run
  intro book
  unfold enter Scorebook.enter
  cases reader.read raw with
  | error cause => rfl
  | ok outcome =>
      change EStateM.run (if Scorebook.isNonstandard book.komiRange outcome then
          modify fun book => { book with nonstandard := true } else pure ())
        { book with table := book.table.count outcome } =
          EStateM.Result.ok () (book.score outcome)
      unfold Scorebook.score
      cases Scorebook.isNonstandard book.komiRange outcome with
      | false =>
          rw [Bool.or_false]
          rfl
      | true =>
          rw [Bool.or_true]
          rfl

theorem take_directory_performs (directory : Bytes) (recursive : Bool) :
    Performs (takeDirectory reader files directory recursive) fun book =>
      (Scorebook.takeDirectory reader files book directory recursive).map outcomeOf := by
  apply performs_of_run
  intro book
  unfold takeDirectory Scorebook.takeDirectory
  rw [EStateM.run_bind, run_on_known (search_performs files directory recursive)]
  cases book.known.search files directory recursive with
  | error cause => rfl
  | ok found => rfl

theorem take_file_performs (route : Bytes) :
    Performs (takeFile reader files route) fun book =>
      (Scorebook.takeFile reader files book route).map outcomeOf := by
  apply performs_of_run
  intro book
  unfold takeFile Scorebook.takeFile
  rw [EStateM.run_bind, run_on_known (accept_performs files route)]
  cases accepted : book.known.accept files route with
  | error cause => rfl
  | ok result =>
      obtain ⟨known, told, path⟩ := result
      cases told with
      | none =>
          have same : known = book.known :=
            (RecordFiles.accept_eq_ok accepted).1.trans (RecordFiles.union_empty book.known)
          rw [same]
          rfl
      | some form => rfl

theorem take_input_performs (route : Bytes) (recursive : Bool) :
    Performs (takeInput reader files route recursive) fun book =>
      (Scorebook.takeInput reader files book route recursive).map outcomeOf := by
  unfold takeInput Scorebook.takeInput
  split
  · exact take_directory_performs reader files route recursive
  · exact take_file_performs reader files route

end InPlace

/-! ## Inputs that are refused -/

def FileSystem.refusal? (files : FileSystem) (route : Bytes) : Option InputError :=
  if files.isDirectory route then none
  else
    match files.resolve route with
    | .error _ => some (.missing route)
    | .ok path =>
        if files.isFileAt path then
          if (RecordForm.ofRoute route).isNone then some (.notARecordFile route) else none
        else some (.notAFile route)

namespace Scorebook

variable {ε : Type} {reader : OutcomeReader ε} {files : FileSystem}

theorem directory_is_not_refused {book : Scorebook} {route : Bytes} {recursive : Bool}
    {cause : InputError} (isDirectory : files.isDirectory route = true) :
    takeDirectory reader files book route recursive ≠ .error cause := by
  unfold FileSystem.isDirectory at isDirectory
  unfold takeDirectory RecordFiles.search
  cases resolved : files.resolve route with
  | error other =>
      rw [resolved] at isDirectory
      cases isDirectory
  | ok path =>
      have there : files.isDirectoryAt path = true := by
        rw [resolved] at isDirectory
        exact isDirectory
      simp [there, bind, Except.bind, pure, Except.pure]

theorem take_input_refused_iff (book : Scorebook) (route : Bytes) (recursive : Bool)
    (cause : InputError) : takeInput reader files book route recursive = .error cause ↔
      files.refusal? route = some cause := by
  unfold takeInput FileSystem.refusal?
  by_cases isDirectory : files.isDirectory route = true
  · rw [if_pos isDirectory, if_pos isDirectory]
    exact iff_of_false (directory_is_not_refused isDirectory) (Option.some_ne_none cause).symm
  · rw [if_neg isDirectory, if_neg isDirectory]
    unfold takeFile RecordFiles.accept
    cases files.resolve route with
    | error other => simp [bind, Except.bind]
    | ok path =>
        cases file : files.isFileAt path with
        | false => simp [file, bind, Except.bind]
        | true =>
            cases RecordForm.ofRoute route with
            | none => simp [file, bind, Except.bind]
            | some form =>
                cases known : book.known.contains path with
                | false => simp [file, known, bind, Except.bind, pure, Except.pure]
                | true => simp [file, known, bind, Except.bind, pure, Except.pure]

end Scorebook

namespace Run

/-- Takes in an input in place. What an error left behind would be kept. -/
def takeInPlace (files : FileSystem) (recursive : Bool) (collected : Collected) (input : Bytes) :
    Collected :=
  match (InPlace.takeInput .gameRecord files input recursive).run collected.book with
  | .ok (count, events) book =>
      { book
        count := collected.count.add count
        events := collected.events ++ events
        errors := collected.errors }
  | .error cause book => { collected with book, errors := collected.errors ++ [cause.message] }

theorem take_in_place_eq (files : FileSystem) (recursive : Bool) :
    takeInPlace files recursive = take files recursive := by
  funext collected input
  unfold takeInPlace take
  rw [InPlace.run_of_performs (InPlace.take_input_performs .gameRecord files input recursive)]
  cases collected.book.takeInput .gameRecord files input recursive with
  | ok progress => rfl
  | error cause => rfl

def collectInPlace (files : FileSystem) (settings : Settings) (komiRange : KomiRange) :
    Collected :=
  settings.inputs.foldl (takeInPlace files settings.recursive)
    ⟨Scorebook.empty komiRange, .zero, [], []⟩

variable (files : FileSystem) (recursive : Bool)

/-- What is left if the inputs that are refused are left out. -/
def acceptable (inputs : List Bytes) : List Bytes :=
  inputs.filter fun input => (files.refusal? input).isNone

theorem take_refused {input : Bytes} {cause : InputError}
    (refused : files.refusal? input = some cause) (collected : Collected) :
    take files recursive collected input =
      { collected with errors := collected.errors ++ [cause.message] } := by
  unfold take
  rw [(Scorebook.take_input_refused_iff collected.book input recursive cause).mpr refused]

/-- What was reported of refused inputs does not matter for what comes next. -/
theorem take_accepted {input : Bytes} (accepted : files.refusal? input = none)
    (collected : Collected) (errors : List String) :
    take files recursive { collected with errors } input =
      { take files recursive collected input with errors } := by
  unfold take
  cases taken : collected.book.takeInput .gameRecord files input recursive with
  | ok progress => rfl
  | error cause =>
      have refused :=
        (Scorebook.take_input_refused_iff collected.book input recursive cause).mp taken
      rw [accepted] at refused
      cases refused

theorem collect_acceptable (start : Collected) (inputs : List Bytes) :
    inputs.foldl (take files recursive) start =
      { (acceptable files inputs).foldl (take files recursive) start with
        errors := start.errors ++ (inputs.filterMap files.refusal?).map InputError.message } := by
  induction inputs using List.reverseRecOn with
  | nil => simp [acceptable]
  | append_singleton inputs input induction =>
      unfold acceptable at induction ⊢
      rw [List.foldl_append, List.foldl_cons, List.foldl_nil, induction, List.filter_append,
        List.filterMap_append, List.map_append, List.foldl_append]
      cases refusal : files.refusal? input with
      | none =>
          rw [take_accepted files recursive refusal]
          simp [refusal]
      | some cause =>
          rw [take_refused files recursive refusal]
          simp [refusal]

end Run

namespace Scorebook

open InPlace

structure LeavesNoTrace {ε : Type} (reader : OutcomeReader ε) (files : FileSystem) : Prop where
  search : ∀ directory recursive, Performs (InPlace.search files directory recursive) fun known =>
    (known.search files directory recursive).map fun found => (found.2, found.1)
  accept : ∀ route, Performs (InPlace.accept files route) fun known =>
    (known.accept files route).map fun accepted => (accepted.2, accepted.1)
  enter : ∀ raw, Performs (InPlace.enter reader raw) fun book =>
    (Scorebook.enter reader book raw).map fun after => ((), after)
  takeDirectory : ∀ directory recursive,
    Performs (InPlace.takeDirectory reader files directory recursive) fun book =>
      (Scorebook.takeDirectory reader files book directory recursive).map outcomeOf
  takeFile : ∀ route, Performs (InPlace.takeFile reader files route) fun book =>
    (Scorebook.takeFile reader files book route).map outcomeOf
  takeInput : ∀ route recursive,
    Performs (InPlace.takeInput reader files route recursive) fun book =>
      (Scorebook.takeInput reader files book route recursive).map outcomeOf
  refusal : ∀ book route recursive cause,
    Scorebook.takeInput reader files book route recursive = .error cause ↔
      files.refusal? route = some cause
  collect : ∀ settings range,
    Run.collectInPlace files settings range = Run.collect files settings range ∧
      Run.collect files settings range =
        { Run.collect files
            { settings with inputs := Run.acceptable files settings.inputs } range with
          errors := (settings.inputs.filterMap files.refusal?).map InputError.message }

/-- Carried out in place, every operation that is refused leaves what it found, and every other one
leaves the scorebook that it gives. Whether an input is refused is told by the files. So taking in
all inputs comes to the same as taking in those that are not refused, wherever the others stand;
they are only reported. -/
theorem refused_operations_leave_no_trace {ε : Type} (reader : OutcomeReader ε)
    (files : FileSystem) : LeavesNoTrace reader files where
  search := search_performs files
  accept := accept_performs files
  enter := enter_performs reader
  takeDirectory := take_directory_performs reader files
  takeFile := take_file_performs reader files
  takeInput := take_input_performs reader files
  refusal := take_input_refused_iff
  collect settings range := by
    constructor
    · unfold Run.collectInPlace
      rw [Run.take_in_place_eq]
      rfl
    · exact Run.collect_acceptable files settings.recursive ⟨empty range, .zero, [], []⟩
        settings.inputs

end Scorebook

end KifuRatings
