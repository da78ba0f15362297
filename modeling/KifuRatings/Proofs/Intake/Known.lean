import KifuRatings.Intake.RecordFiles
import Mathlib.Algebra.BigOperators.Group.List.Basic
import Mathlib.Data.List.Nodup

/-!
# Sets of record files

A set of record files is told by its members, each a form and a path. A path may be known in
either form, or in both. What is added beside what is known adds up, whatever is added up over
the files.
-/

namespace KifuRatings

def RecordForm.ofPath (path : Path) : Option RecordForm := path.getLast?.bind RecordForm.ofName

namespace RecordFiles

def ofForm (files : RecordFiles) : RecordForm → PathSet
  | .lines => files.lines
  | .whole => files.whole

instance : Membership (RecordForm × Path) RecordFiles :=
  ⟨fun files file => file.2 ∈ files.ofForm file.1⟩

theorem mem_of_form {files : RecordFiles} {form : RecordForm} {path : Path} :
    (form, path) ∈ files ↔ path ∈ files.ofForm form := Iff.rfl

theorem ext_file {left right : RecordFiles} (same : ∀ file, file ∈ left ↔ file ∈ right) :
    left = right := by
  obtain ⟨leftLines, leftWhole⟩ := left
  obtain ⟨rightLines, rightWhole⟩ := right
  have sameLines : leftLines = rightLines :=
    Std.ExtTreeSet.ext_mem fun path => same (.lines, path)
  have sameWhole : leftWhole = rightWhole :=
    Std.ExtTreeSet.ext_mem fun path => same (.whole, path)
  rw [sameLines, sameWhole]

@[simp]
theorem not_mem_empty (file : RecordForm × Path) : file ∉ empty := by
  obtain ⟨form, path⟩ := file
  cases form <;> exact Std.ExtTreeSet.not_mem_empty

@[simp]
theorem mem_insert {files : RecordFiles} {form : RecordForm} {path : Path}
    {file : RecordForm × Path} :
    file ∈ files.insert form path ↔ file = (form, path) ∨ file ∈ files := by
  obtain ⟨otherForm, other⟩ := file
  rw [mem_of_form, mem_of_form]
  cases form <;> cases otherForm <;>
    simp [insert, ofForm, Std.ExtTreeSet.mem_insert, Std.LawfulEqCmp.compare_eq_iff_eq,
      @eq_comm Path path]

@[simp]
theorem mem_union {left right : RecordFiles} {file : RecordForm × Path} :
    file ∈ left.union right ↔ file ∈ left ∨ file ∈ right := by
  obtain ⟨form, path⟩ := file
  rw [mem_of_form, mem_of_form, mem_of_form]
  cases form <;>
    simp [union, ofForm, Std.ExtTreeSet.mem_insertMany_list, Std.ExtTreeSet.mem_toList]

@[simp]
theorem union_empty (files : RecordFiles) : files.union empty = files := by
  apply ext_file
  simp

theorem insert_eq_union (files : RecordFiles) (form : RecordForm) (path : Path) :
    files.insert form path = files.union (empty.insert form path) := by
  apply ext_file
  intro file
  simp [or_comm]

theorem contains_iff {files : RecordFiles} {path : Path} :
    files.contains path = true ↔ ∃ form, (form, path) ∈ files := by
  unfold contains
  rw [Bool.or_eq_true]
  constructor
  · intro either
    rcases either with found | found
    · exact ⟨.lines, Std.ExtTreeSet.mem_iff_contains.mpr found⟩
    · exact ⟨.whole, Std.ExtTreeSet.mem_iff_contains.mpr found⟩
  · intro member
    rcases member with ⟨form, found⟩
    cases form with
    | lines => exact .inl (Std.ExtTreeSet.mem_iff_contains.mp found)
    | whole => exact .inr (Std.ExtTreeSet.mem_iff_contains.mp found)

theorem not_mem_of_unknown {files : RecordFiles} {path : Path}
    (unknown : files.contains path = false) (form : RecordForm) : (form, path) ∉ files := by
  intro member
  have known := contains_iff.mpr ⟨form, member⟩
  rw [unknown] at known
  simp at known

@[simp]
theorem mem_to_list {files : RecordFiles} {file : RecordForm × Path} :
    file ∈ files.toList ↔ file ∈ files := by
  obtain ⟨form, path⟩ := file
  rw [mem_of_form]
  cases form <;> simp [toList, ofForm, Std.ExtTreeSet.mem_toList]

theorem mem_of_contains {files : RecordFiles} {form : RecordForm} {path : Path}
    (told : ∀ other, (other, path) ∈ files → RecordForm.ofPath path = some other)
    (isForm : RecordForm.ofPath path = some form) (known : files.contains path = true) :
    (form, path) ∈ files := by
  obtain ⟨other, member⟩ := contains_iff.mp known
  have toldForm := told other member
  rw [isForm] at toldForm
  rw [Option.some.inj toldForm]
  exact member

/-- With the unknown ones of some files, what is known is what was known and these files, if none
of them was known in another form. -/
theorem mem_union_unknown {known new : RecordFiles} {form : RecordForm} {path : Path}
    {reached : Prop} (isNew : (form, path) ∈ new ↔ known.contains path = false ∧ reached)
    (inForm : known.contains path = true → reached → (form, path) ∈ known) :
    (form, path) ∈ known.union new ↔ (form, path) ∈ known ∨ reached := by
  rw [mem_union, isNew]
  constructor
  · intro either
    rcases either with old | ⟨_, isReached⟩
    · exact .inl old
    · exact .inr isReached
  · intro either
    rcases either with old | isReached
    · exact .inl old
    · cases isKnown : known.contains path with
      | false => exact .inr ⟨rfl, isReached⟩
      | true => exact .inl (inForm isKnown isReached)

theorem path_set_nodup (paths : PathSet) : paths.toList.Nodup := by
  refine Std.ExtTreeSet.distinct_toList.imp fun {left right} different same => ?_
  exact different (by rw [same]; exact Std.ReflCmp.compare_self)

theorem to_list_nodup (files : RecordFiles) : files.toList.Nodup := by
  unfold toList
  refine List.nodup_append.mpr ⟨?_, ?_, ?_⟩
  · exact List.Nodup.map (fun _ _ same => by simpa using same) (path_set_nodup _)
  · exact List.Nodup.map (fun _ _ same => by simpa using same) (path_set_nodup _)
  · intro left inLines right inWhole same
    simp only [List.mem_map] at inLines inWhole
    obtain ⟨_, _, rfl⟩ := inLines
    obtain ⟨_, _, rfl⟩ := inWhole
    simp at same

theorem union_to_list_perm {known new : RecordFiles} (fresh : ∀ file ∈ new, file ∉ known) :
    (known.union new).toList.Perm (known.toList ++ new.toList) := by
  refine (List.perm_ext_iff_of_nodup (to_list_nodup _) ?_).mpr fun file => ?_
  · refine List.nodup_append.mpr ⟨to_list_nodup _, to_list_nodup _, ?_⟩
    intro file isKnown other isNew same
    subst same
    exact fresh file (mem_to_list.mp isNew) (mem_to_list.mp isKnown)
  · rw [List.mem_append, mem_to_list, mem_to_list, mem_to_list, mem_union]

theorem sum_union {Value : Type} [AddCommMonoid Value] (value : RecordForm × Path → Value)
    {known new : RecordFiles} (fresh : ∀ file ∈ new, file ∉ known) :
    ((known.union new).toList.map value).sum =
      (known.toList.map value).sum + (new.toList.map value).sum := by
  rw [((union_to_list_perm fresh).map value).sum_eq, List.map_append, List.sum_append]

end RecordFiles

end KifuRatings
