import KifuRatings.Intake.Search
import KifuRatings.Proofs.Files.Scan
import KifuRatings.Proofs.Intake.Known

/-!
# What an input reaches

An input reaches record files: those that lie in a directory, or the one that it names. A
search and the naming of a file make known exactly what the input reaches and what is not
known yet. The form comes from the name under which a file is reached; it is the form that
the path itself tells where names and paths agree, as they do without links.
-/

namespace KifuRatings

/-- A record file that a scan finds for the directory to which a route leads. -/
def FileSystem.Finds (files : FileSystem) (route : Bytes) (recursive : Bool) (form : RecordForm)
    (path : Path) : Prop :=
  ∃ directory name, files.resolve route = .ok directory ∧ files.isDirectoryAt directory = true ∧
    files.ScanFinds directory recursive name path ∧ RecordForm.ofName name = some form

/-- The record file to which a route leads. -/
def FileSystem.Names (files : FileSystem) (route : Bytes) (form : RecordForm) (path : Path) :
    Prop :=
  files.resolve route = .ok path ∧ files.isFileAt path = true ∧
    RecordForm.ofRoute route = some form

theorem FileSystem.names_unique {files : FileSystem} {route : Bytes} {form other : RecordForm}
    {path place : Path} (names : files.Names route form path)
    (again : files.Names route other place) : (other, place) = (form, path) := by
  have sameForm := Option.some.inj (again.2.2.symm.trans names.2.2)
  have samePath := Except.ok.inj (again.1.symm.trans names.1)
  rw [sameForm, samePath]

namespace RecordFiles

variable {known : RecordFiles} {files : FileSystem}

def addFound (known new : RecordFiles) (found : FileSystem.Found) : RecordFiles :=
  match RecordForm.ofName found.name with
  | some form => if known.contains found.path then new else new.insert form found.path
  | none => new

theorem mem_add_found {new : RecordFiles} {found : FileSystem.Found} {form : RecordForm} {path : Path} :
    (form, path) ∈ known.addFound new found ↔
      (form, path) ∈ new ∨ known.contains path = false ∧ found.path = path ∧
        RecordForm.ofName found.name = some form := by
  unfold addFound
  split
  · rename_i told isTold
    split
    · rename_i old
      refine ⟨.inl, ?_⟩
      intro either
      rcases either with member | ⟨unknown, same, _⟩
      · exact member
      · rw [same, unknown] at old
        simp at old
    · rename_i unknown
      rw [mem_insert, or_comm, Prod.mk.injEq]
      refine or_congr_right ⟨?_, ?_⟩
      · intro same
        rcases same with ⟨rfl, rfl⟩
        exact ⟨by simpa using unknown, rfl, isTold⟩
      · intro reached
        rcases reached with ⟨_, same, isForm⟩
        rw [isTold] at isForm
        exact ⟨(Option.some.inj isForm).symm, same.symm⟩
  · rename_i untold
    refine ⟨.inl, ?_⟩
    intro either
    rcases either with member | ⟨_, _, isForm⟩
    · exact member
    · rw [untold] at isForm
      simp at isForm

theorem mem_added (found : List FileSystem.Found) (new : RecordFiles) {form : RecordForm}
    {path : Path} :
    (form, path) ∈ found.foldl known.addFound new ↔
      (form, path) ∈ new ∨ known.contains path = false ∧
        ∃ name, ⟨name, path⟩ ∈ found ∧ RecordForm.ofName name = some form := by
  induction found generalizing new with
  | nil => simp
  | cons first found induction =>
      rw [List.foldl_cons, induction, mem_add_found]
      constructor
      · intro either
        rcases either with (member | ⟨unknown, rfl, isForm⟩) | ⟨unknown, name, member, isForm⟩
        · exact .inl member
        · exact .inr ⟨unknown, first.name, by simp, isForm⟩
        · exact .inr ⟨unknown, name, by simp [member], isForm⟩
      · intro either
        rcases either with member | ⟨unknown, name, member, isForm⟩
        · exact .inl (.inl member)
        · rcases List.mem_cons.mp member with rfl | member
          · exact .inl (.inr ⟨unknown, rfl, isForm⟩)
          · exact .inr ⟨unknown, name, member, isForm⟩

theorem mem_unknown_in {directory : Path} {recursive : Bool} {form : RecordForm} {path : Path}
    (isDirectory : files.isDirectoryAt directory = true) :
    (form, path) ∈ known.unknownIn files directory recursive ↔
      known.contains path = false ∧
        ∃ name, files.ScanFinds directory recursive name path ∧
          RecordForm.ofName name = some form := by
  have folded : known.unknownIn files directory recursive =
      (files.scan directory recursive).foldl known.addFound empty := rfl
  rw [folded, mem_added]
  simp only [not_mem_empty, false_or, FileSystem.mem_scan isDirectory]

theorem search_iff {route : Bytes} {recursive : Bool} {after new : RecordFiles} {event : Event} :
    known.search files route recursive = .ok (after, new, event) ↔
      ∃ directory, files.resolve route = .ok directory ∧ files.isDirectoryAt directory = true ∧
        new = known.unknownIn files directory recursive ∧ after = known.union new ∧
        event = .found new.lines.size new.whole.size route := by
  unfold search
  cases files.resolve route with
  | error cause => simp
  | ok directory =>
      by_cases isDirectory : files.isDirectoryAt directory = true
      · simp only [isDirectory, if_true, Except.ok.injEq, Prod.mk.injEq, exists_eq_left',
          true_and]
        constructor
        · rintro ⟨rfl, rfl, rfl⟩
          exact ⟨rfl, rfl, rfl⟩
        · rintro ⟨rfl, rfl, rfl⟩
          exact ⟨rfl, rfl, rfl⟩
      · simp [isDirectory]

theorem search_eq_ok {route : Bytes} {recursive : Bool} {after new : RecordFiles} {event : Event}
    (searched : known.search files route recursive = .ok (after, new, event)) :
    after = known.union new ∧
      ∀ form path, (form, path) ∈ new ↔
        known.contains path = false ∧ files.Finds route recursive form path := by
  obtain ⟨directory, resolved, isDirectory, rfl, rfl, _⟩ := search_iff.mp searched
  refine ⟨rfl, fun form path => ?_⟩
  rw [mem_unknown_in isDirectory]
  refine and_congr_right fun _ => ?_
  constructor
  · intro found
    rcases found with ⟨name, lies, isForm⟩
    exact ⟨directory, name, resolved, isDirectory, lies, isForm⟩
  · intro found
    rcases found with ⟨other, name, otherResolved, _, lies, isForm⟩
    obtain rfl : directory = other := Except.ok.inj (resolved.symm.trans otherResolved)
    exact ⟨name, lies, isForm⟩

theorem search_eq_error {route : Bytes} {recursive : Bool} {cause : InputError}
    (refused : known.search files route recursive = .error cause) (form : RecordForm)
    (path : Path) : ¬files.Finds route recursive form path := by
  intro found
  rcases found with ⟨directory, _, resolved, isDirectory, _⟩
  unfold search at refused
  simp [resolved, isDirectory] at refused

/-- The new files of an accepted route: one file, or none if its path is known. -/
def accepted (form : Option RecordForm) (path : Path) : RecordFiles :=
  match form with
  | some form => empty.insert form path
  | none => empty

theorem mem_accepted_known {route : Bytes} {told : RecordForm} {target : Path}
    (named : files.Names route told target) (old : known.contains target = true)
    (form : RecordForm) (path : Path) :
    (form, path) ∈ accepted none target ↔
      known.contains path = false ∧ files.Names route form path := by
  apply iff_of_false (not_mem_empty _)
  intro reached
  rcases reached with ⟨unknown, again⟩
  have same := FileSystem.names_unique named again
  rw [Prod.mk.injEq] at same
  rw [same.2, old] at unknown
  simp at unknown

theorem mem_accepted_unknown {route : Bytes} {told : RecordForm} {target : Path}
    (named : files.Names route told target) (unknown : known.contains target = false)
    (form : RecordForm) (path : Path) :
    (form, path) ∈ accepted (some told) target ↔
      known.contains path = false ∧ files.Names route form path := by
  rw [accepted, mem_insert]
  constructor
  · intro either
    rcases either with same | member
    · cases same
      exact ⟨unknown, named⟩
    · exact absurd member (not_mem_empty _)
  · intro reached
    exact .inl (FileSystem.names_unique named reached.2)

theorem accept_eq_ok {route : Bytes} {after : RecordFiles} {told : Option RecordForm}
    {target : Path} (isAccepted : known.accept files route = .ok (after, told, target)) :
    after = known.union (accepted told target) ∧
      ∀ form path, (form, path) ∈ accepted told target ↔
        known.contains path = false ∧ files.Names route form path := by
  unfold accept at isAccepted
  split at isAccepted
  · simp at isAccepted
  · rename_i reached resolved
    split at isAccepted
    · rename_i file
      split at isAccepted
      · simp at isAccepted
      · rename_i form isForm
        have named : files.Names route form reached := ⟨resolved, file, isForm⟩
        split at isAccepted
        · rename_i old
          simp only [Except.ok.injEq, Prod.mk.injEq] at isAccepted
          obtain ⟨rfl, rfl, rfl⟩ := isAccepted
          exact ⟨(union_empty known).symm, mem_accepted_known named old⟩
        · rename_i unknown
          simp only [Except.ok.injEq, Prod.mk.injEq] at isAccepted
          obtain ⟨rfl, rfl, rfl⟩ := isAccepted
          exact ⟨insert_eq_union known form reached,
            mem_accepted_unknown named (by simpa using unknown)⟩
    · simp at isAccepted

theorem accept_known {route : Bytes} {form : RecordForm} {path : Path}
    (named : files.Names route form path) (old : known.contains path = true) :
    known.accept files route = .ok (known, none, path) := by
  obtain ⟨resolved, file, isForm⟩ := named
  simp [accept, resolved, file, isForm, old]

theorem accept_eq_some {route : Bytes} {form : RecordForm} {path : Path} {after : RecordFiles} :
    known.accept files route = .ok (after, some form, path) ↔
      files.Names route form path ∧ known.contains path = false ∧
        after = known.insert form path := by
  constructor
  · intro isAccepted
    obtain ⟨united, reached⟩ := accept_eq_ok isAccepted
    obtain ⟨unknown, named⟩ := (reached form path).mp (by simp [accepted])
    exact ⟨named, unknown, united.trans (insert_eq_union known form path).symm⟩
  · rintro ⟨⟨resolved, file, isForm⟩, unknown, rfl⟩
    simp [accept, resolved, file, isForm, unknown]

theorem accept_eq_error {route : Bytes} {cause : InputError}
    (refused : known.accept files route = .error cause) (form : RecordForm) (path : Path) :
    ¬files.Names route form path := by
  intro named
  rcases named with ⟨resolved, file, isForm⟩
  unfold accept at refused
  simp only [resolved, file, if_true, isForm] at refused
  split at refused <;> simp at refused

end RecordFiles

/-! ## Names and paths -/

namespace FileSystem

variable {files : FileSystem}

/-- Every name with a form that leads to a regular file tells the form that the path of this
file tells. -/
def FormsAgree (files : FileSystem) : Prop :=
  ∀ directory name left path form,
    files.follow maxLinks directory [.into name] = .ok (left, path) →
      files.isFileAt path = true → RecordForm.ofName name = some form →
        RecordForm.ofPath path = some form

def Linkless (files : FileSystem) : Prop := ∀ path text, files.lookup path ≠ some (.link text)

theorem forms_agree_of_linkless (linkless : files.Linkless) : files.FormsAgree := by
  intro directory name left path form reached _ isForm
  obtain ⟨walks, there⟩ := follow_eq_ok.mp reached
  obtain ⟨_, ⟨_, _, _, later⟩ | ⟨_, _, _, rfl⟩ | ⟨_, text, _, here, _⟩⟩ := walks_through_name walks
  · cases later
    simpa [RecordForm.ofPath] using isForm
  · simpa [RecordForm.ofPath] using isForm
  · exact absurd here (linkless _ text)

/-- Agreement is told with all links to spare, but it holds with fewer. -/
theorem form_of_last_name (agree : files.FormsAgree) {links left : Nat} {directory path : Path}
    {name : Bytes} {form : RecordForm} (few : links ≤ maxLinks)
    (walks : Walks files links directory [.into name] left path)
    (file : files.isFileAt path = true) (isForm : RecordForm.ofName name = some form) :
    RecordForm.ofPath path = some form := by
  obtain ⟨more, all⟩ := Nat.exists_eq_add_of_le few
  have reached := follow_eq_ok.mpr ⟨walks_with_more walks more, file_is_there file⟩
  rw [← all] at reached
  exact agree directory name _ path form reached file isForm

theorem form_of_finds (agree : files.FormsAgree) {route : Bytes} {recursive : Bool}
    {form : RecordForm} {path : Path} (finds : files.Finds route recursive form path) :
    RecordForm.ofPath path = some form := by
  obtain ⟨directory, name, _, isDirectory, ⟨links, place, scanned, lies⟩, isForm⟩ := finds
  obtain ⟨file, between, left, _, reached⟩ := lies
  obtain ⟨walks, _⟩ := follow_eq_ok.mp reached
  rw [of_path_append] at walks
  obtain ⟨rest, parent, before, last⟩ := walks_append.mp walks
  have few := (walks_left_le before).trans (scanned_directory isDirectory scanned).2
  exact form_of_last_name agree few last file isForm

theorem last_name_of_walks {links left : Nat} {start path : Path} {route : Route}
    (walks : Walks files links start route left path) (file : files.isFileAt path = true)
    {name : Bytes} (isLast : Route.lastName? route = some name) :
    ∃ before, route = before ++ [.into name] := by
  rcases List.eq_nil_or_concat route with rfl | ⟨before, last, rfl⟩
  · simp [Route.lastName?] at isLast
  · rw [List.concat_eq_append] at walks isLast ⊢
    cases last with
    | into other =>
        refine ⟨before, ?_⟩
        obtain rfl : other = name := by simpa [Route.lastName?] using isLast
        rfl
    | up => simp [Route.lastName?] at isLast
    | stay =>
        obtain ⟨rest, middle, _, last⟩ := walks_append.mp walks
        cases last with
        | stay isDirectory later =>
            cases later
            rw [file_is_no_directory file] at isDirectory
            simp at isDirectory

theorem form_of_names (agree : files.FormsAgree) {route : Bytes} {form : RecordForm} {path : Path}
    (names : files.Names route form path) : RecordForm.ofPath path = some form := by
  obtain ⟨resolved, file, told⟩ := names
  unfold RecordForm.ofRoute at told
  obtain ⟨name, isLast, isForm⟩ := Option.bind_eq_some_iff.mp told
  obtain ⟨_, left, followed⟩ := resolve_eq_ok.mp resolved
  obtain ⟨walks, _⟩ := follow_eq_ok.mp followed
  obtain ⟨before, same⟩ := last_name_of_walks walks file isLast
  rw [same] at walks
  obtain ⟨rest, parent, earlier, last⟩ := walks_append.mp walks
  exact form_of_last_name agree (walks_left_le earlier) last file isForm

end FileSystem

end KifuRatings
