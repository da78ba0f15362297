import KifuRatings.Proofs.Files.PathText
import KifuRatings.Proofs.Intake.Search

/-!
# What a search discovers

A search returns the record files in a directory that were not known, by the names under which they
stand there, and makes them known beside the old ones. So whatever it came across is known
afterwards, and naming it again by the route of its find adds nothing. Which characters stand in the
route of the directory makes no difference. Only a path that is not made of characters at all is
taken for another one, and what is discovered is what lies there.
-/

namespace KifuRatings

namespace RecordForm

/-- A name that is some stem, a dot and the extension of the form in any letter case. -/
def Ends (form : RecordForm) (name : Bytes) : Prop :=
  ∃ stem extension, stem ≠ [] ∧ name = stem ++ 0x2E :: extension ∧
    extension.map lowerByte = form.extension

theorem extension_eq_some {name extension : Bytes} :
    extension? name = some extension ↔
      0x2E ∉ extension ∧ ∃ stem, stem ≠ [] ∧ name = stem ++ 0x2E :: extension := by
  simp only [extension?]
  constructor
  · intro told
    have whole := List.takeWhile_append_dropWhile (p := (· != 0x2E)) (l := name.reverse)
    have stops := List.head?_dropWhile_not (· != 0x2E) name.reverse
    split at told
    · rename_i dot last stem dropped
      obtain rfl := Option.some.inj told
      rw [dropped] at whole stops
      obtain rfl : dot = 0x2E := by simpa using stops
      refine ⟨fun member => ?_, (last :: stem).reverse, by simp, ?_⟩
      · simpa using List.mem_takeWhile_imp (List.mem_reverse.mp member)
      · have spelled := congrArg List.reverse whole
        rw [List.reverse_append, List.reverse_reverse] at spelled
        exact spelled.symm.trans (by simp)
    · cases told
  · rintro ⟨noDot, stem, notEmpty, rfl⟩
    obtain ⟨last, before, reversed⟩ :=
      List.exists_cons_of_ne_nil (List.reverse_ne_nil_iff.mpr notEmpty)
    have passes : ∀ byte ∈ extension.reverse, (byte != 0x2E) = true := by
      intro byte member
      simpa using ne_of_mem_of_not_mem (List.mem_reverse.mp member) noDot
    have backwards : (stem ++ 0x2E :: extension).reverse =
        extension.reverse ++ 0x2E :: last :: before := by
      rw [List.reverse_append, List.reverse_cons, reversed, List.append_assoc]
      rfl
    simp only [backwards, List.takeWhile_append_of_pos passes, List.dropWhile_append_of_pos passes]
    simp

/-- The extensions of record files have no dot in them, so the last dot tells them. -/
theorem of_name_eq_some {name : Bytes} {form : RecordForm} :
    ofName name = some form ↔ form.Ends name := by
  have told : ofName name = some form ↔ ∃ extension, extension? name = some extension ∧
      extension.map lowerByte = form.extension := by
    have different : RecordForm.whole.extension ≠ RecordForm.lines.extension := by decide
    unfold ofName
    rw [Option.bind_eq_bind, Option.bind_eq_some_iff]
    refine exists_congr fun extension => and_congr_right fun _ => ?_
    cases form <;> grind
  rw [told, Ends]
  constructor
  · rintro ⟨extension, cut, lower⟩
    obtain ⟨_, stem, notEmpty, spelled⟩ := extension_eq_some.mp cut
    exact ⟨stem, extension, notEmpty, spelled, lower⟩
  · rintro ⟨stem, extension, notEmpty, spelled, lower⟩
    have noDot : 0x2E ∉ extension := by
      intro member
      have inLower : lowerByte 0x2E ∈ form.extension := lower ▸ List.mem_map_of_mem member
      cases form <;> revert inLower <;> decide
    exact ⟨extension, extension_eq_some.mpr ⟨noDot, stem, notEmpty, spelled⟩, lower⟩

end RecordForm

theorem Route.last_name_of_path (path : Path) (name : Bytes) :
    lastName? (.stay :: ofPath (path ++ [name])) = some name := by
  simp [lastName?, ofPath]

/-- A record file that a scan comes to is named by the path under which it stands there. -/
theorem FileSystem.names_of_follow {files : FileSystem} (wellFormed : files.WellFormed)
    {directory place between path : Path} {name : Bytes} {links left : Nat} {form : RecordForm}
    (isDirectory : files.isDirectoryAt directory = true)
    (scanned : files.scanned? directory = some (links, place))
    (reached : files.follow links place (Route.ofPath (between ++ [name])) = .ok (left, path))
    (file : files.isFileAt path = true) (isForm : RecordForm.ofName name = some form) :
    files.Names (Path.written (directory.asText ++ (between ++ [name]))) form path := by
  obtain ⟨walks, there⟩ := follow_eq_ok.mp reached
  have before := walks_to_scanned wellFormed.rooted isDirectory scanned
  have fromRoot : files.follow maxLinks [] (Route.ofPath (directory.asText ++ (between ++ [name]))) =
      .ok (left, path) := by
    rw [of_path_append]
    exact follow_eq_ok.mpr ⟨walks_append.mpr ⟨links, place, before, walks⟩, there⟩
  obtain ⟨route, resolved⟩ := resolve_written wellFormed (by simp) fromRoot
  refine ⟨resolved, file, ?_⟩
  rw [RecordForm.ofRoute, route, ← List.append_assoc, Route.last_name_of_path]
  exact isForm

namespace RecordFiles

variable {files : FileSystem}

/-- What a search of a directory returns as new and leaves known behind it. -/
structure Discovers (files : FileSystem) (directory : Path) (recursive : Bool)
    (known after new : RecordFiles) : Prop where
  found : ∀ (form : RecordForm) path, (form, path) ∈ new ↔ known.contains path = false ∧
    ∃ name, files.ScanFinds directory recursive name path ∧ form.Ends name
  united : ∀ file, file ∈ after ↔ file ∈ known ∨ file ∈ new
  contained : ∀ name path (form : RecordForm), files.ScanFinds directory recursive name path →
    form.Ends name → after.contains path = true
  /-- Nothing is new about a file under the path at which the search came across it. -/
  again : files.WellFormed → ∀ (links : Nat) (place between : Path) (name : Bytes) (left : Nat)
    (path : Path) (form : RecordForm), files.scanned? directory = some (links, place) →
    (recursive = false → between = []) →
    files.follow links place (Route.ofPath (between ++ [name])) = .ok (left, path) →
    files.isFileAt path = true → form.Ends name →
    after.accept files (Path.written (directory.asText ++ (between ++ [name]))) =
      .ok (after, none, path)

theorem discovers_unknown {directory : Path} (isDirectory : files.isDirectoryAt directory = true)
    (recursive : Bool) (known : RecordFiles) :
    Discovers files directory recursive known
      (known.union (known.unknownIn files directory recursive))
      (known.unknownIn files directory recursive) := by
  have found : ∀ (form : RecordForm) path,
      (form, path) ∈ known.unknownIn files directory recursive ↔ known.contains path = false ∧
        ∃ name, files.ScanFinds directory recursive name path ∧ form.Ends name := by
    intro form path
    simp only [mem_unknown_in isDirectory, RecordForm.of_name_eq_some]
  have contained : ∀ name path (form : RecordForm),
      files.ScanFinds directory recursive name path → form.Ends name →
      (known.union (known.unknownIn files directory recursive)).contains path = true := by
    intro name path form scanFinds ends
    cases old : known.contains path with
    | true =>
        obtain ⟨other, member⟩ := contains_iff.mp old
        exact contains_iff.mpr ⟨other, mem_union.mpr (.inl member)⟩
    | false =>
        exact contains_iff.mpr ⟨form, mem_union.mpr (.inr
          ((found form path).mpr ⟨old, name, scanFinds, ends⟩))⟩
  refine ⟨found, fun file => mem_union, contained, ?_⟩
  intro wellFormed links place between name left path form scanned direct followed file ends
  have scanFinds : files.ScanFinds directory recursive name path :=
    ⟨links, place, scanned, file, between, left, direct, followed⟩
  have isForm := RecordForm.of_name_eq_some.mpr ends
  exact accept_known
    (FileSystem.names_of_follow wellFormed isDirectory scanned followed file isForm)
    (contained name path form scanFinds ends)

/-- A directory whose name could be read as a pattern, with a record file in it and a link to this
file below. -/
def bracketed : FileSystem :=
  (((FileSystem.empty ["[a]*"]).put ["[a]*", "game.SGF"] (.file [])).put
    ["[a]*", "sub"] .directory).put ["[a]*", "sub", "again.sgf"] (.link "../game.SGF")

theorem bracketed_well_formed : bracketed.WellFormed := by
  have isName : ∀ name ∈ (["[a]*", "game.SGF", "sub", "again.sgf"] : Path), IsName name := by
    simp only [List.forall_mem_cons, List.not_mem_nil, false_imp_iff, implies_true, and_true]
    refine ⟨⟨?_, ?_, ?_, ?_⟩, ⟨?_, ?_, ?_, ?_⟩, ⟨?_, ?_, ?_, ?_⟩, ⟨?_, ?_, ?_, ?_⟩⟩ <;> decide
  have first : (FileSystem.empty ["[a]*"]).WellFormed :=
    FileSystem.empty_well_formed (by simp [isName])
  have second := @FileSystem.put_well_formed _ first ["[a]*"] "game.SGF"
    (by decide +kernel) (by decide +kernel) (isName _ (by simp)) (.file [])
  have third := @FileSystem.put_well_formed _ second ["[a]*"] "sub"
    (by decide +kernel) (by decide +kernel) (isName _ (by simp)) .directory
  exact @FileSystem.put_well_formed _ third ["[a]*", "sub"] "again.sgf"
    (by decide +kernel) (by decide +kernel) (isName _ (by simp)) (.link "../game.SGF")

/-- A directory named by a byte that is no text, with a record file in it, and another one beside it
whose name is what is shown of that byte. -/
def marked : FileSystem :=
  (((FileSystem.empty [[0xFF]]).put [[0xFF], "a.sgf"] (.file [])).put ["\uFFFD"] .directory).put
    ["\uFFFD", "b.sgf"] (.file [])

/-- What is searched there is the directory that is shown. -/
example : (empty.search marked [0x2F, 0xFF] false).map (·.2.1.toList) =
    .ok [(.whole, (["\uFFFD", "b.sgf"] : Path))] := by
  decide +kernel

end RecordFiles

end KifuRatings
