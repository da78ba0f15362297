import KifuRatings.Files.Change
import KifuRatings.Proofs.Files.Scan
import Mathlib.Data.List.Induction

/-!
# Growing file systems

A file system grows if entries are created and nothing that is there changes. A route that leads
to something still leads there afterwards, and a file that stands below the root in directories
alone reads as before.
-/

namespace KifuRatings

def Entry.isLink : Entry → Bool
  | .link _ => true
  | _ => false

namespace FileSystem

structure Grows (files later : FileSystem) : Prop where
  workingDirectory : later.workingDirectory = files.workingDirectory
  kept : ∀ path entry, files.lookup path = some entry → later.lookup path = some entry

/-- Every entry stands in a directory, which is itself an entry or the root. -/
def Rooted (files : FileSystem) : Prop :=
  ∀ path name, files.lookup (path ++ [name]) ≠ none → files.isDirectoryAt path = true

/-- Creates an entry in a directory where nothing is yet, and otherwise does nothing. Links are
not created. -/
def create (files : FileSystem) (path : Path) (entry : Entry) : FileSystem :=
  if files.lookup path = none ∧ files.isDirectoryAt path.dropLast = true ∧ entry.isLink = false then
    files.put path entry
  else files

variable {files later : FileSystem}

/-! ## What growth keeps -/

theorem grows_refl (files : FileSystem) : files.Grows files := ⟨rfl, fun _ _ there => there⟩

theorem directory_grows (grows : files.Grows later) {path : Path}
    (isDirectory : files.isDirectoryAt path = true) : later.isDirectoryAt path = true := by
  simp only [isDirectoryAt, decide_eq_true_eq] at isDirectory ⊢
  exact grows.kept path .directory isDirectory

theorem there_grows (grows : files.Grows later) {path : Path} (there : files.lookup path ≠ none) :
    later.lookup path = files.lookup path := by
  obtain ⟨entry, held⟩ := Option.ne_none_iff_exists'.mp there
  rw [held, grows.kept path entry held]

theorem file_grows (grows : files.Grows later) {path : Path} (file : files.isFileAt path = true) :
    later.isFileAt path = true := by
  rwa [isFileAt, there_grows grows (file_is_there file)]

/-- A walk to something that exists finds on its way what it found before. -/
theorem walks_grows (grows : files.Grows later) {links left : Nat} {start target : Path}
    {route : Route} (walks : Walks files links start route left target)
    (there : files.lookup target ≠ none) : Walks later links start route left target := by
  induction walks with
  | done => exact .done
  | stay directory _ induction => exact .stay (directory_grows grows directory) (induction there)
  | up directory _ induction => exact .up (directory_grows grows directory) (induction there)
  | into directory here noLink _ induction =>
      exact .into (directory_grows grows directory) (grows.kept _ _ here) noLink (induction there)
  | missing _ nothing => exact absurd nothing there
  | link directory here _ induction =>
      exact .link (directory_grows grows directory) (grows.kept _ _ here) (induction there)

theorem follow_grows (grows : files.Grows later) {links left : Nat} {start path : Path}
    {route : Route} (reached : files.follow links start route = .ok (left, path)) :
    later.follow links start route = .ok (left, path) := by
  obtain ⟨walks, there⟩ := follow_eq_ok.mp reached
  refine follow_eq_ok.mpr ⟨walks_grows grows walks there, ?_⟩
  rwa [there_grows grows there]

theorem resolve_grows (grows : files.Grows later) {route : Bytes} {path : Path}
    (resolved : files.resolve route = .ok path) : later.resolve route = .ok path := by
  obtain ⟨notEmpty, left, followed⟩ := resolve_eq_ok.mp resolved
  refine resolve_eq_ok.mpr ⟨notEmpty, left, ?_⟩
  rw [grows.workingDirectory]
  exact follow_grows grows followed

theorem lies_under_grows (grows : files.Grows later) {links : Nat} {directory path : Path}
    {recursive : Bool} {name : Bytes} (lies : files.LiesUnder links directory recursive name path) :
    later.LiesUnder links directory recursive name path := by
  obtain ⟨file, between, left, direct, reached⟩ := lies
  exact ⟨file_grows grows file, between, left, direct, follow_grows grows reached⟩

theorem scanned_grows (grows : files.Grows later) {directory : Path} {reached : Nat × Path}
    (scanned : files.scanned? directory = some reached) :
    later.scanned? directory = some reached := by
  unfold scanned? at scanned ⊢
  split at scanned
  · rwa [if_pos ‹_›]
  · rw [if_neg ‹_›]
    split at scanned
    · rename_i followed
      split at scanned
      · rename_i isPlace
        cases scanned
        simp [follow_grows grows followed, directory_grows grows isPlace]
      · cases scanned
    · cases scanned

theorem scan_finds_grows (grows : files.Grows later) {directory path : Path} {recursive : Bool}
    {name : Bytes} (found : files.ScanFinds directory recursive name path) :
    later.ScanFinds directory recursive name path := by
  obtain ⟨links, place, scanned, lies⟩ := found
  exact ⟨links, place, scanned_grows grows scanned, lies_under_grows grows lies⟩

/-! ## Reading files -/

theorem plain_of_rooted (rooted : files.Rooted) {names : Path}
    (isDirectory : files.isDirectoryAt names = true) : files.Plain [] names := by
  induction names using List.reverseRecOn with
  | nil => exact plain_nil []
  | append_singleton names name induction =>
      have there : files.lookup (names ++ [name]) ≠ none := by
        simp only [isDirectoryAt, decide_eq_true_eq] at isDirectory
        simp [isDirectory]
      have before := induction (rooted names name there)
      intro count positive bound
      rw [List.length_append, List.length_singleton] at bound
      rcases Nat.lt_or_eq_of_le bound with shorter | rfl
      · rw [List.take_append_of_le_length (by omega)]
        exact before count positive (by omega)
      · rw [List.take_of_length_le (by simp)]
        exact isDirectory

theorem follow_path_of_file (rooted : files.Rooted) {path : Path}
    (file : files.isFileAt path = true) :
    files.follow maxLinks [] (Route.ofPath path) = .ok (maxLinks, path) := by
  rcases List.eq_nil_or_concat path with rfl | ⟨parent, name, rfl⟩
  · simp [isFileAt, lookup] at file
  · rw [List.concat_eq_append] at file ⊢
    have there := file_is_there file
    obtain ⟨entry, held⟩ := Option.ne_none_iff_exists'.mp there
    have noLink : ∀ text, entry ≠ .link text := by
      rintro text rfl
      simp [isFileAt, held] at file
    have isParent := rooted parent name there
    have root : files.isDirectoryAt [] = true := by simp [isDirectoryAt, lookup]
    have before := (walks_plain maxLinks root (plain_of_rooted rooted isParent)).1
    refine follow_eq_ok.mpr ⟨?_, there⟩
    rw [of_path_append]
    exact walks_append.mpr ⟨maxLinks, parent, before, .into isParent held noLink .done⟩

theorem read_path_of_file (rooted : files.Rooted) {path : Path}
    (file : files.isFileAt path = true) : files.readPath path = files.contentAt path := by
  unfold readPath
  rw [follow_path_of_file rooted file]
  rfl

theorem read_path_grows (rooted : files.Rooted) (grows : files.Grows later) {path : Path}
    (file : files.isFileAt path = true) : later.readPath path = files.readPath path := by
  have followed := follow_grows grows (follow_path_of_file rooted file)
  have again : later.readPath path = later.contentAt path := by
    unfold readPath
    rw [followed]
    rfl
  rw [again, read_path_of_file rooted file, contentAt, contentAt,
    there_grows grows (file_is_there file)]

/-! ## Creating entries -/

theorem lookup_put (files : FileSystem) {path : Path} (notRoot : path ≠ []) (entry : Entry)
    (other : Path) :
    (files.put path entry).lookup other =
      if other = path then some entry else files.lookup other := by
  unfold lookup put
  by_cases root : other = []
  · rw [if_pos root, if_pos root, if_neg (root.trans_ne notRoot.symm)]
  · rw [if_neg root, if_neg root, Std.ExtTreeMap.getElem?_insert]
    simp only [Std.LawfulEqCmp.compare_eq_iff_eq, eq_comm (a := path)]

theorem create_cases (files : FileSystem) (path : Path) (entry : Entry) :
    files.create path entry = files ∨
      ∃ parent name, path = parent ++ [name] ∧ files.lookup path = none ∧
        files.isDirectoryAt parent = true ∧ entry.isLink = false ∧
        files.create path entry = files.put path entry := by
  by_cases possible : files.lookup path = none ∧ files.isDirectoryAt path.dropLast = true ∧
      entry.isLink = false
  · have created : files.create path entry = files.put path entry := if_pos possible
    obtain ⟨nothing, isDirectory, noLink⟩ := possible
    rcases List.eq_nil_or_concat path with rfl | ⟨parent, name, rfl⟩
    · simp [lookup] at nothing
    · rw [List.concat_eq_append, List.dropLast_concat] at isDirectory
      exact .inr ⟨parent, name, List.concat_eq_append, nothing, isDirectory, noLink, created⟩
  · exact .inl (if_neg possible)

theorem create_grows (files : FileSystem) (path : Path) (entry : Entry) :
    files.Grows (files.create path entry) := by
  rcases create_cases files path entry with
    nothing | ⟨parent, name, rfl, unused, _, _, created⟩
  · rw [nothing]
    exact grows_refl files
  · rw [created]
    refine ⟨rfl, fun other held there => ?_⟩
    rw [lookup_put files (by simp), if_neg]
    · exact there
    · rintro rfl
      rw [unused] at there
      simp at there

theorem create_rooted (rooted : files.Rooted) (path : Path) (entry : Entry) :
    (files.create path entry).Rooted := by
  have grows := create_grows files path entry
  rcases create_cases files path entry with
    nothing | ⟨parent, name, rfl, _, isDirectory, _, created⟩
  · rwa [nothing]
  · intro directory other there
    apply directory_grows grows
    rw [created, lookup_put files (by simp)] at there
    split at there
    · rename_i same
      rwa [(List.append_inj' same rfl).1]
    · exact rooted directory other there

end FileSystem

end KifuRatings
