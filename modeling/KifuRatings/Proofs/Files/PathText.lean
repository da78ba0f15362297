import KifuRatings.Proofs.Files.Growth

/-!
# Paths as routes

The path of an entry can be written down and followed again, whatever bytes its names have, as
long as they are names at all: a slash, a dot alone or two dots would be read as something else. In
a file system in which every entry has a name and stands in a directory, the route that is written
of the path of a scan and of names behind it leads where the names lead from the place of the scan.
-/

namespace KifuRatings

/-- What may stand between two slashes of a route and is a name there. -/
structure IsName (name : Bytes) : Prop where
  noSlash : 0x2F ∉ name
  notEmpty : name ≠ []
  notDot : name ≠ [0x2E]
  notDots : name ≠ [0x2E, 0x2E]

namespace Route

theorem step_of_name {name : Bytes} (isName : IsName name) : stepOf name = .into name := by
  rw [stepOf, if_neg (not_or.mpr ⟨isName.notEmpty, isName.notDot⟩), if_neg isName.notDots]

theorem of_path_written {path : Path} (notEmpty : path ≠ []) (named : ∀ name ∈ path, IsName name) :
    ofBytes path.written = .stay :: ofPath path := by
  have parts : path.written.splitOnP (· == 0x2F) = [] :: path := by
    have split := List.splitOn_intercalate 0x2F (fun name member => (named name member).noSlash)
      notEmpty
    rw [List.splitOn_eq_splitOnP] at split
    have written : path.written = [] ++ 0x2F :: [0x2F].intercalate path := rfl
    rw [written, List.splitOnP_append_cons [] _ (by simp), split]
    rfl
  rw [ofBytes, parts, List.map_cons, ofPath]
  exact congrArg (Step.stay :: ·)
    (List.map_congr_left fun name member => step_of_name (named name member))

end Route

namespace FileSystem

/-- Every entry has a name and stands in a directory. -/
structure WellFormed (files : FileSystem) : Prop where
  rooted : files.Rooted
  named : ∀ path name, files.lookup (path ++ [name]) ≠ none → IsName name

variable {files : FileSystem}

/-- Whoever comes through names to something finds an entry of each name. -/
theorem names_of_walk (wellFormed : files.WellFormed) {links left : Nat} {start target : Path}
    {names : Path} (walks : Walks files links start (Route.ofPath names) left target)
    (there : files.lookup target ≠ none) : ∀ name ∈ names, IsName name := by
  induction names generalizing links start with
  | nil => simp
  | cons first names induction =>
      rw [List.forall_mem_cons]
      obtain ⟨_, plain | ⟨nothing, _, _, same⟩ | ⟨fewer, text, _, here, later⟩⟩ :=
        walks_through_name walks
      · obtain ⟨entry, here, _, later⟩ := plain
        exact ⟨wellFormed.named start first (by simp [here]), induction later⟩
      · exact absurd nothing (same ▸ there)
      · obtain ⟨rest, middle, _, later⟩ := walks_append.mp later
        exact ⟨wellFormed.named start first (by simp [here]), induction later⟩

theorem resolve_written (wellFormed : files.WellFormed) {names path : Path} {left : Nat}
    (notEmpty : names ≠ [])
    (reached : files.follow maxLinks [] (Route.ofPath names) = .ok (left, path)) :
    Route.ofBytes names.written = .stay :: Route.ofPath names ∧
      files.resolve names.written = .ok path := by
  obtain ⟨walks, there⟩ := follow_eq_ok.mp reached
  have route := Route.of_path_written notEmpty (names_of_walk wellFormed walks there)
  have absolute : origin files.workingDirectory names.written = [] := rfl
  have root : files.isDirectoryAt [] = true := by simp [isDirectoryAt, lookup]
  refine ⟨route, resolve_eq_ok.mpr ⟨rfl, left, ?_⟩⟩
  rw [absolute, route]
  exact follow_eq_ok.mpr ⟨.stay root walks, there⟩

/-- The text of a path leads from the root to the directory that is scanned for it. -/
theorem walks_to_scanned (rooted : files.Rooted) {directory place : Path} {links : Nat}
    (isDirectory : files.isDirectoryAt directory = true)
    (scanned : files.scanned? directory = some (links, place)) :
    Walks files maxLinks [] (Route.ofPath directory.asText) links place := by
  unfold scanned? at scanned
  split at scanned
  · rename_i isText
    cases scanned
    have root : files.isDirectoryAt [] = true := by simp [isDirectoryAt, lookup]
    rw [isText]
    exact (walks_plain maxLinks root (plain_of_rooted rooted isDirectory)).1
  · split at scanned
    · rename_i followed
      split at scanned
      · cases scanned
        exact (follow_eq_ok.mp followed).1
      · cases scanned
    · cases scanned

/-! ## File systems that are built up -/

theorem lookup_empty (base path : Path) :
    (empty base).lookup path = if path <+: base then some .directory else none := by
  have distinct : ((List.range base.length).map fun length =>
      (base.take (length + 1), Entry.directory)).Pairwise
        fun left right => ¬Path.order left.1 right.1 = .eq := by
    rw [List.pairwise_map]
    refine List.pairwise_lt_range.imp_of_mem fun {less more} isLess isMore before same => ?_
    have lengths := congrArg List.length (Std.LawfulEqCmp.eq_of_compare same)
    rw [List.mem_range] at isLess isMore
    simp only [List.length_take] at lengths
    omega
  unfold lookup empty
  by_cases root : path = []
  · simp [root]
  · rw [if_neg root]
    split
    · rename_i before
      obtain ⟨rest, rfl⟩ := before
      refine Std.ExtTreeMap.getElem?_ofList_of_mem Std.ReflCmp.compare_self distinct ?_
      rw [List.mem_map]
      have positive := List.length_pos_iff.mpr root
      refine ⟨path.length - 1, by simp; omega, ?_⟩
      rw [Nat.sub_add_cancel positive, List.take_left]
    · rename_i notBefore
      apply Std.ExtTreeMap.getElem?_ofList_of_contains_eq_false
      rw [Bool.eq_false_iff]
      intro member
      simp only [List.contains_iff_mem, List.map_map, List.mem_map] at member
      obtain ⟨length, _, rfl⟩ := member
      exact notBefore (List.take_prefix _ base)

theorem empty_well_formed {base : Path} (named : ∀ name ∈ base, IsName name) :
    (empty base).WellFormed := by
  constructor
  · intro path name there
    rw [lookup_empty, ite_ne_right_iff] at there
    have before := (List.prefix_append path [name]).trans there.1
    rw [isDirectoryAt, lookup_empty, if_pos before, decide_eq_true rfl]
  · intro path name there
    rw [lookup_empty, ite_ne_right_iff] at there
    exact named name (there.1.subset (by simp))

theorem put_well_formed (wellFormed : files.WellFormed) {parent : Path} {name : Bytes}
    (isDirectory : files.isDirectoryAt parent = true)
    (notDirectory : files.isDirectoryAt (parent ++ [name]) = false) (isName : IsName name)
    (entry : Entry) : (files.put (parent ++ [name]) entry).WellFormed := by
  have notRoot : parent ++ [name] ≠ [] := by simp
  have kept : ∀ path, files.isDirectoryAt path = true →
      (files.put (parent ++ [name]) entry).isDirectoryAt path = true := by
    intro path there
    have other : path ≠ parent ++ [name] := by
      rintro rfl
      rw [notDirectory] at there
      cases there
    rwa [isDirectoryAt, lookup_put files notRoot, if_neg other]
  constructor
  · intro path other there
    rw [lookup_put files notRoot] at there
    split at there
    · rename_i same
      exact (List.append_inj' same rfl).1 ▸ kept parent isDirectory
    · exact kept path (wellFormed.rooted path other there)
  · intro path other there
    rw [lookup_put files notRoot] at there
    split at there
    · rename_i same
      exact (List.cons.inj (List.append_inj' same rfl).2).1 ▸ isName
    · exact wellFormed.named path other there

end FileSystem

end KifuRatings
