import KifuRatings.Proofs.Files.Walk

/-!
# What a scan finds

A scan of a directory finds exactly the files to which some names lead that are walked from
the directory: one name, or any number of them if the scan is recursive. A file is found
under the last of these names. Links on the way are followed as on any other walk. The directory
is the one that is asked for if its path is text, whichever characters stand in it.
-/

namespace KifuRatings.FileSystem

variable {files : FileSystem}

theorem follow_eq_ok {links left : Nat} {start path : Path} {route : Route} :
    files.follow links start route = .ok (left, path) ↔
      Walks files links start route left path ∧ files.lookup path ≠ none := by
  rw [← walk_eq_ok]
  unfold follow
  cases files.walk links start route with
  | error cause => simp [bind, Except.bind]
  | ok reached =>
      obtain ⟨rest, target⟩ := reached
      by_cases nothing : files.lookup target = none
      · simp only [bind, Except.bind, nothing, if_true, Except.ok.injEq, Prod.mk.injEq]
        constructor
        · intro impossible
          simp [throw, throwThe, MonadExceptOf.throw] at impossible
        · intro reached
          rcases reached with ⟨⟨_, rfl⟩, there⟩
          exact absurd nothing there
      · simp only [bind, Except.bind, nothing, if_false, pure, Except.pure, Except.ok.injEq,
          Prod.mk.injEq]
        constructor
        · intro same
          rcases same with ⟨rfl, rfl⟩
          exact ⟨⟨rfl, rfl⟩, nothing⟩
        · exact fun reached => reached.1

theorem resolve_eq_ok {route : Bytes} {path : Path} :
    files.resolve route = .ok path ↔ route.isEmpty = false ∧ ∃ left,
      files.follow maxLinks (origin files.workingDirectory route) (Route.ofBytes route) =
        .ok (left, path) := by
  unfold resolve
  cases empty : route.isEmpty with
  | true => simp
  | false =>
      cases followed : files.follow maxLinks (origin files.workingDirectory route)
          (Route.ofBytes route) with
      | error cause => simp [Except.map]
      | ok reached => simp [Except.map, Prod.ext_iff]

/-- A regular file to which names lead from a directory: one name, or any number of names if
the search is recursive. Its name is the last of them. -/
def LiesUnder (files : FileSystem) (links : Nat) (directory : Path) (recursive : Bool)
    (name : Bytes) (path : Path) : Prop :=
  files.isFileAt path = true ∧ ∃ between left, (recursive = false → between = []) ∧
    files.follow links directory (Route.ofPath (between ++ [name])) = .ok (left, path)

theorem file_is_there {path : Path} (file : files.isFileAt path = true) :
    files.lookup path ≠ none := by
  intro nothing
  simp [isFileAt, nothing] at file

theorem file_is_no_directory {path : Path} (file : files.isFileAt path = true) :
    files.isDirectoryAt path = false := by
  unfold isFileAt at file
  unfold isDirectoryAt
  split at file <;> simp_all

theorem mem_keys {path : Path} (notRoot : path ≠ []) :
    path ∈ files.entries.keys ↔ files.lookup path ≠ none := by
  rw [Std.ExtTreeMap.mem_keys, lookup, if_neg notRoot]
  exact Std.ExtTreeMap.mem_iff_isSome_getElem?.trans (by simp)

theorem entry_of_walk {links left : Nat} {directory path : Path} {name : Bytes}
    (walks : Walks files links directory [.into name] left path)
    (there : files.lookup path ≠ none) :
    files.isDirectoryAt directory = true ∧ files.lookup (directory ++ [name]) ≠ none := by
  cases walks with
  | into isDirectory here noLink later => exact ⟨isDirectory, by simp [here]⟩
  | missing isDirectory nothing => exact absurd nothing there
  | link isDirectory here later => exact ⟨isDirectory, by simp [here]⟩

theorem follow_last_of_name (links : Nat) (directory : Path) (name : Bytes) :
    files.followLast links (directory ++ [name]) = files.follow links directory [.into name] := by
  simp [followLast, Route.ofPath]

theorem found_eq_some {links : Nat} {directory path : Path} {entry name : Bytes} :
    files.found? links (directory ++ [entry]) = some ⟨name, path⟩ ↔
      entry = name ∧ files.isFileAt path = true ∧
        ∃ left, files.follow links directory [.into entry] = .ok (left, path) := by
  unfold found?
  rw [follow_last_of_name]
  cases files.follow links directory [.into entry] with
  | error cause => simp
  | ok reached =>
      obtain ⟨left, target⟩ := reached
      by_cases file : files.isFileAt target = true
      · simp only [List.getLast?_concat, file, if_true, Option.some.injEq, Found.mk.injEq,
          Except.ok.injEq, Prod.mk.injEq, exists_eq_left']
        constructor
        · intro same
          rcases same with ⟨rfl, rfl⟩
          exact ⟨rfl, file, rfl⟩
        · intro found
          rcases found with ⟨rfl, _, rfl⟩
          exact ⟨rfl, rfl⟩
      · simp only [List.getLast?_concat, file, Bool.false_eq_true, if_false, reduceCtorEq,
          Except.ok.injEq, Prod.mk.injEq, exists_eq_left', false_iff, not_and]
        intro _ isFile same
        subst same
        exact file isFile

theorem mem_scan_flat {links : Nat} {directory path : Path} {name : Bytes} :
    ⟨name, path⟩ ∈ files.scanFrom links directory false ↔
      files.LiesUnder links directory false name path := by
  have route : ∀ name, Route.ofPath ([] ++ [name]) = [.into name] := fun _ => rfl
  simp only [scanFrom, Bool.false_eq_true, if_false, List.mem_filterMap, List.mem_map, entriesIn,
    List.mem_filter, decide_eq_true_eq]
  constructor
  · intro listed
    rcases listed with ⟨_, ⟨entry, ⟨_, notRoot, rfl⟩, rfl⟩, found⟩
    obtain ⟨parent, last, rfl⟩ : ∃ parent last, entry = parent ++ [last] :=
      ⟨_, _, (List.dropLast_concat_getLast notRoot).symm⟩
    simp only [List.dropLast_concat] at found ⊢
    obtain ⟨rfl, file, left, reached⟩ := found_eq_some.mp found
    exact ⟨file, [], left, fun _ => rfl, by rw [route]; exact reached⟩
  · intro lies
    rcases lies with ⟨file, between, left, direct, reached⟩
    rw [direct rfl, route] at reached
    obtain ⟨walks, there⟩ := follow_eq_ok.mp reached
    have entry := (entry_of_walk walks there).2
    have notRoot : directory ++ [name] ≠ [] := by simp
    refine ⟨(links, directory ++ [name]), ⟨directory ++ [name], ⟨?_, notRoot, by simp⟩, rfl⟩, ?_⟩
    · exact (mem_keys notRoot).mpr entry
    · exact found_eq_some.mpr ⟨rfl, file, left, reached⟩

/-! ## Scanning below a directory -/

/-- The names lead through directories alone, with no link among them. -/
def Plain (files : FileSystem) (directory : Path) (names : List Bytes) : Prop :=
  ∀ count, 0 < count → count ≤ names.length →
    files.isDirectoryAt (directory ++ names.take count) = true

theorem plain_nil (directory : Path) : files.Plain directory [] := by
  intro count positive bound
  rw [List.length_nil] at bound
  omega

theorem plain_cons {directory : Path} {name : Bytes} {names : List Bytes} :
    files.Plain directory (name :: names) ↔
      files.isDirectoryAt (directory ++ [name]) = true ∧
        files.Plain (directory ++ [name]) names := by
  constructor
  · intro plain
    refine ⟨plain 1 (by simp) (by simp), fun count _ bound => ?_⟩
    simpa using plain (count + 1) (by simp) (by simpa using bound)
  · intro parts count positive bound
    rcases parts with ⟨first, others⟩
    cases count with
    | zero => omega
    | succ count =>
        rcases Nat.eq_zero_or_pos count with rfl | positive
        · simpa using first
        · simpa using others count positive (by simpa using bound)

theorem is_below_iff {directory path : Path} :
    files.isBelow directory path = true ↔
      ∃ names name, path = directory ++ (names ++ [name]) ∧ files.Plain directory names := by
  simp only [isBelow, Bool.and_eq_true, decide_eq_true_eq, List.isPrefixOf_iff_prefix,
    List.all_eq_true, List.mem_range, Bool.or_eq_true]
  constructor
  · intro below
    rcases below with ⟨⟨longer, behind, rfl⟩, between⟩
    have notEmpty : behind ≠ [] := by
      intro same
      subst same
      simp at longer
    refine ⟨behind.dropLast, behind.getLast notEmpty, ?_, fun count positive bound => ?_⟩
    · rw [List.dropLast_concat_getLast]
    · rw [List.length_dropLast] at bound
      have inside := between (directory.length + count) (by rw [List.length_append]; omega)
      rw [List.take_length_add_append] at inside
      have sameTake : behind.dropLast.take count = behind.take count := by
        rw [List.dropLast_eq_take, List.take_take, Nat.min_eq_left bound]
      rw [sameTake]
      rcases inside with short | isDirectory
      · omega
      · exact isDirectory
  · intro behind
    rcases behind with ⟨names, name, rfl, plain⟩
    refine ⟨⟨by simp, List.prefix_append _ _⟩, fun length bound => ?_⟩
    by_cases short : length ≤ directory.length
    · exact .inl short
    · refine .inr ?_
      simp only [List.length_append, List.length_singleton] at bound
      obtain ⟨count, rfl⟩ := Nat.exists_eq_add_of_lt (Nat.lt_of_not_le short)
      have isDirectory := plain (count + 1) (by omega) (by omega)
      rw [Nat.add_assoc, List.take_length_add_append, List.take_append_of_le_length (by omega)]
      exact isDirectory

theorem mem_entries_below {directory path : Path} :
    path ∈ files.entriesBelow directory ↔
      ∃ names name, path = directory ++ (names ++ [name]) ∧ files.Plain directory names ∧
        files.lookup path ≠ none := by
  rw [entriesBelow, List.mem_filter, is_below_iff]
  constructor
  · intro listed
    rcases listed with ⟨key, names, name, rfl, plain⟩
    exact ⟨names, name, rfl, plain, (mem_keys (by simp)).mp key⟩
  · intro behind
    rcases behind with ⟨names, name, rfl, plain, there⟩
    exact ⟨(mem_keys (by simp)).mpr there, names, name, rfl, plain⟩

theorem walks_plain (links : Nat) {directory : Path} {names : List Bytes}
    (isDirectory : files.isDirectoryAt directory = true) (plain : files.Plain directory names) :
    Walks files links directory (Route.ofPath names) links (directory ++ names) ∧
      files.isDirectoryAt (directory ++ names) = true := by
  induction names generalizing directory with
  | nil =>
      rw [List.append_nil]
      exact ⟨.done, isDirectory⟩
  | cons name names induction =>
      obtain ⟨first, others⟩ := plain_cons.mp plain
      obtain ⟨walks, ended⟩ := induction first others
      rw [List.append_assoc] at walks ended
      have there : files.lookup (directory ++ [name]) = some .directory := by
        simpa [isDirectoryAt] using first
      exact ⟨.into isDirectory there (by simp) walks, ended⟩

theorem linked_directory_eq_some {links left : Nat} {directory target : Path} {name : Bytes} :
    files.linkedDirectory? links (directory ++ [name]) = some (left, target) ↔
      (∃ text, files.lookup (directory ++ [name]) = some (.link text)) ∧
        files.follow links directory [.into name] = .ok (left, target) ∧
        files.isDirectoryAt target = true := by
  unfold linkedDirectory?
  rw [follow_last_of_name]
  constructor
  · intro linked
    split at linked
    · rename_i text rest reached here there
      split at linked
      · rename_i isDirectory
        obtain ⟨rfl, rfl⟩ : rest = left ∧ reached = target := by simpa using linked
        exact ⟨⟨text, here⟩, there, isDirectory⟩
      · simp at linked
    · simp at linked
  · intro leads
    rcases leads with ⟨⟨text, here⟩, there, isDirectory⟩
    simp only [here, there, isDirectory, if_true]

/-- One turn of a recursive scan: what lies below without links, and what lies below the
directories to which links among it lead. -/
theorem mem_scan_below {links left : Nat} {directory path : Path} :
    (left, path) ∈ files.scanBelow links directory ↔
      ∃ entry ∈ files.entriesBelow directory, (left = links ∧ path = entry) ∨
        ∃ fewer rest target, links = fewer + 1 ∧
          files.linkedDirectory? links entry = some (rest, target) ∧
          (left, path) ∈ files.scanBelow (min rest fewer) target := by
  cases links with
  | zero =>
      rw [scanBelow, List.mem_map]
      simp [and_comm, eq_comm]
  | succ links =>
      rw [scanBelow, List.mem_flatMap]
      refine exists_congr fun entry => and_congr_right fun _ => ?_
      rw [List.mem_cons, Prod.mk.injEq]
      apply or_congr Iff.rfl
      cases linked : files.linkedDirectory? (links + 1) entry with
      | none => simp
      | some reached =>
          obtain ⟨rest, target⟩ := reached
          simp [and_assoc]

def Looked (files : FileSystem) (links : Nat) (directory : Path) (left : Nat) (path : Path) :
    Prop :=
  ∃ between parent name, Walks files links directory (Route.ofPath between) left parent ∧
    files.isDirectoryAt parent = true ∧ path = parent ++ [name] ∧ files.lookup path ≠ none

theorem walks_append {links left : Nat} {start target : Path} {first second : Route} :
    Walks files links start (first ++ second) left target ↔
      ∃ rest middle, Walks files links start first rest middle ∧
        Walks files rest middle second left target := by
  rw [← walk_eq_ok, walk_append]
  simp only [← walk_eq_ok]
  cases files.walk links start first with
  | error cause => simp [Except.bind]
  | ok reached =>
      obtain ⟨rest, middle⟩ := reached
      simp [Except.bind, and_assoc]

@[simp]
theorem of_path_append (first second : Path) :
    Route.ofPath (first ++ second) = Route.ofPath first ++ Route.ofPath second := by
  simp [Route.ofPath]

theorem looked_of_mem_scan_below (links : Nat) {left : Nat} {directory path : Path}
    (isDirectory : files.isDirectoryAt directory = true)
    (member : (left, path) ∈ files.scanBelow links directory) :
    files.Looked links directory left path := by
  induction links using Nat.strongRecOn generalizing directory with
  | ind links fewerLinks =>
      obtain ⟨entry, below, found⟩ := mem_scan_below.mp member
      obtain ⟨names, name, rfl, plain, there⟩ := mem_entries_below.mp below
      rw [← List.append_assoc] at found there
      obtain ⟨walks, parent⟩ := walks_plain links isDirectory plain
      rcases found with ⟨rfl, rfl⟩ | ⟨fewer, rest, target, rfl, linked, later⟩
      · exact ⟨names, directory ++ names, name, walks, parent, rfl, there⟩
      · obtain ⟨⟨text, here⟩, reached, isTarget⟩ := linked_directory_eq_some.mp linked
        obtain ⟨crossing, _⟩ := follow_eq_ok.mp reached
        -- The link itself is one of the links that may be followed, so fewer are left.
        have used : rest ≤ fewer := by
          cases crossing with
          | into _ other noLink _ => exact absurd (Option.some.inj (other.symm.trans here)) (noLink text)
          | missing _ nothing => exact absurd nothing there
          | link _ _ crossed => exact walks_left_le crossed
        rw [Nat.min_eq_left used] at later
        obtain ⟨between, parent, last, walksOn, isParent, same, thereToo⟩ :=
          fewerLinks rest (Nat.lt_succ_of_le used) isTarget later
        refine ⟨names ++ ([name] ++ between), parent, last, ?_, isParent, same, thereToo⟩
        rw [of_path_append, of_path_append]
        exact walks_append.mpr ⟨_, _, walks, walks_append.mpr ⟨_, _, crossing, walksOn⟩⟩

theorem entries_below_subset {directory path : Path} {name : Bytes}
    (isDirectory : files.isDirectoryAt (directory ++ [name]) = true)
    (below : path ∈ files.entriesBelow (directory ++ [name])) :
    path ∈ files.entriesBelow directory := by
  obtain ⟨names, last, rfl, plain, there⟩ := mem_entries_below.mp below
  refine mem_entries_below.mpr ⟨name :: names, last, ?_, plain_cons.mpr ⟨isDirectory, plain⟩, there⟩
  simp

theorem scan_below_subset {links left : Nat} {directory path : Path} {name : Bytes}
    (isDirectory : files.isDirectoryAt (directory ++ [name]) = true)
    (member : (left, path) ∈ files.scanBelow links (directory ++ [name])) :
    (left, path) ∈ files.scanBelow links directory := by
  obtain ⟨entry, below, found⟩ := mem_scan_below.mp member
  exact mem_scan_below.mpr ⟨entry, entries_below_subset isDirectory below, found⟩

theorem directory_of_walks {links left : Nat} {start target : Path} {names : List Bytes}
    (walks : Walks files links start (Route.ofPath names) left target)
    (isTarget : files.isDirectoryAt target = true) : files.isDirectoryAt start = true := by
  cases names with
  | nil =>
      cases walks
      exact isTarget
  | cons name names => exact (walks_through_name walks).1

theorem scan_below_through_link {fewer rest left : Nat} {directory target path : Path}
    {first text : Bytes} (isDirectory : files.isDirectoryAt directory = true)
    (here : files.lookup (directory ++ [first]) = some (.link text))
    (crossed : Walks files fewer (origin directory text) (Route.ofBytes text) rest target)
    (isTarget : files.isDirectoryAt target = true)
    (member : (left, path) ∈ files.scanBelow rest target) :
    (left, path) ∈ files.scanBelow (fewer + 1) directory := by
  have there : files.lookup target ≠ none := by
    have same : files.lookup target = some .directory := by
      simpa [isDirectoryAt] using isTarget
    simp [same]
  have reached : files.follow (fewer + 1) directory [.into first] = .ok (rest, target) := by
    refine follow_eq_ok.mpr ⟨.link isDirectory here ?_, there⟩
    rw [List.append_nil]
    exact crossed
  have below : directory ++ [first] ∈ files.entriesBelow directory := by
    refine mem_entries_below.mpr ⟨[], first, by simp, plain_nil _, ?_⟩
    simp [here]
  refine mem_scan_below.mpr ⟨directory ++ [first], below, .inr ⟨fewer, rest, target, rfl,
    linked_directory_eq_some.mpr ⟨⟨text, here⟩, reached, isTarget⟩, ?_⟩⟩
  rw [Nat.min_eq_left (walks_left_le crossed)]
  exact member

theorem mem_scan_below_of_looked (links : Nat) {left : Nat} {directory path : Path}
    (looked : files.Looked links directory left path) :
    (left, path) ∈ files.scanBelow links directory := by
  obtain ⟨between, parent, name, walks, isParent, rfl, there⟩ := looked
  induction links using Nat.strongRecOn generalizing directory between with
  | ind links fewerLinks =>
      induction between generalizing directory with
      | nil =>
          cases walks
          refine mem_scan_below.mpr ⟨_, mem_entries_below.mpr ?_, .inl ⟨rfl, rfl⟩⟩
          exact ⟨[], name, rfl, plain_nil _, there⟩
      | cons first names induction =>
          obtain ⟨isDirectory, plain | ⟨nothing, _, _, rfl⟩ | ⟨fewer, text, rfl, here, later⟩⟩ :=
            walks_through_name walks
          · obtain ⟨entry, _, _, later⟩ := plain
            exact scan_below_subset (directory_of_walks later isParent) (induction later)
          · simp [isDirectoryAt, nothing] at isParent
          · obtain ⟨rest, target, crossed, walksOn⟩ := walks_append.mp later
            have isTarget := directory_of_walks walksOn isParent
            have used := Nat.lt_succ_of_le (walks_left_le crossed)
            exact scan_below_through_link isDirectory here crossed isTarget
              (fewerLinks rest used names walksOn)

/-- A scan finds exactly the files that lie in a directory, or below it. -/
theorem mem_scan_from {links : Nat} {directory path : Path} {recursive : Bool} {name : Bytes}
    (isDirectory : files.isDirectoryAt directory = true) :
    ⟨name, path⟩ ∈ files.scanFrom links directory recursive ↔
      files.LiesUnder links directory recursive name path := by
  cases recursive with
  | false => exact mem_scan_flat
  | true =>
      simp only [scanFrom, if_true, List.mem_filterMap]
      constructor
      · intro listed
        rcases listed with ⟨⟨left, entry⟩, looked, found⟩
        obtain ⟨between, parent, last, walks, isParent, rfl, there⟩ :=
          looked_of_mem_scan_below links isDirectory looked
        obtain ⟨rfl, file, rest, reached⟩ := found_eq_some.mp found
        obtain ⟨walksOn, thereToo⟩ := follow_eq_ok.mp reached
        refine ⟨file, between, rest, by simp, follow_eq_ok.mpr ⟨?_, thereToo⟩⟩
        rw [of_path_append]
        exact walks_append.mpr ⟨_, _, walks, walksOn⟩
      · intro lies
        rcases lies with ⟨file, between, left, _, reached⟩
        obtain ⟨walks, there⟩ := follow_eq_ok.mp reached
        rw [of_path_append] at walks
        obtain ⟨rest, parent, walksTo, last⟩ := walks_append.mp walks
        obtain ⟨isParent, entry⟩ := entry_of_walk last there
        refine ⟨(rest, parent ++ [name]), mem_scan_below_of_looked links ?_, ?_⟩
        · exact ⟨between, parent, name, walksTo, isParent, rfl, entry⟩
        · exact found_eq_some.mpr ⟨rfl, file, left, follow_eq_ok.mpr ⟨last, there⟩⟩

/-! ## The directory that is scanned -/

/-- A file that lies in the directory to which the text of a path leads, or below it. -/
def ScanFinds (files : FileSystem) (directory : Path) (recursive : Bool) (name : Bytes)
    (path : Path) : Prop :=
  ∃ links place, files.scanned? directory = some (links, place) ∧
    files.LiesUnder links place recursive name path

theorem scan_finds_iff {directory place path : Path} {links : Nat} {recursive : Bool} {name : Bytes}
    (scanned : files.scanned? directory = some (links, place)) :
    files.ScanFinds directory recursive name path ↔
      files.LiesUnder links place recursive name path := by
  constructor
  · rintro ⟨fewer, other, again, lies⟩
    rw [scanned] at again
    cases again
    exact lies
  · exact fun lies => ⟨links, place, scanned, lies⟩

theorem scanned_directory {directory place : Path} {links : Nat}
    (isDirectory : files.isDirectoryAt directory = true)
    (scanned : files.scanned? directory = some (links, place)) :
    files.isDirectoryAt place = true ∧ links ≤ maxLinks := by
  unfold scanned? at scanned
  split at scanned
  · cases scanned
    exact ⟨isDirectory, Nat.le_refl _⟩
  · split at scanned
    · rename_i reached followed
      split at scanned
      · rename_i isPlace
        cases scanned
        exact ⟨isPlace, walks_left_le (follow_eq_ok.mp followed).1⟩
      · cases scanned
    · cases scanned

theorem mem_scan {directory path : Path} {recursive : Bool} {name : Bytes}
    (isDirectory : files.isDirectoryAt directory = true) :
    ⟨name, path⟩ ∈ files.scan directory recursive ↔
      files.ScanFinds directory recursive name path := by
  unfold scan
  cases scanned : files.scanned? directory with
  | none => simp [ScanFinds, scanned]
  | some reached =>
      obtain ⟨links, place⟩ := reached
      rw [scan_finds_iff scanned]
      exact mem_scan_from (scanned_directory isDirectory scanned).1

@[simp]
theorem as_text_of_texts (names : List String) :
    Path.asText (names.map Utf8.encode) = names.map Utf8.encode := by
  simp [Path.asText, Utf8.decode_lossy_encode]

theorem scanned_of_texts (files : FileSystem) (names : List String) :
    files.scanned? (names.map Utf8.encode) = some (maxLinks, names.map Utf8.encode) :=
  if_pos (as_text_of_texts names)

theorem scan_finds_of_texts {names : List String} {path : Path} {recursive : Bool} {name : Bytes} :
    files.ScanFinds (names.map Utf8.encode) recursive name path ↔
      files.LiesUnder maxLinks (names.map Utf8.encode) recursive name path :=
  scan_finds_iff (scanned_of_texts files names)

end KifuRatings.FileSystem
