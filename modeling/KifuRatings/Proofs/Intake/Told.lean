import KifuRatings.Proofs.Intake.Coupling

/-!
# What the known files tell

The known files tell everything that a scorebook holds and that was counted on the way, as long
as each of them reads as it did when it was taken in. Two scorebooks that know the same files
are then the same.
-/

namespace KifuRatings.Scorebook

variable {ε : Type} {reader : OutcomeReader ε} {files : FileSystem} {range : KomiRange}
  {book : Scorebook} {count : IntakeCount}

/-- A scorebook and a count that come from the known files, each as it reads now. -/
structure Told (reader : OutcomeReader ε) (files : FileSystem) (range : KomiRange)
    (book : Scorebook) (count : IntakeCount) : Prop where
  table : Coupled reader (fun _ => files) book
  nonstandard : book.nonstandard = true ↔
    ∃ file ∈ book.known, ∃ game ∈ gamesAt reader files file.1 file.2,
      isNonstandard range game = true
  komiRange : book.komiRange = range
  count : count = countsOf reader files book.known

theorem told_nothing (reader : OutcomeReader ε) (files : FileSystem) (range : KomiRange) :
    Told reader files range (empty range) .zero where
  table := coupled_empty (fun _ => files) range
  nonstandard := by
    apply iff_of_false (by simp [empty])
    intro held
    rcases held with ⟨file, known, _⟩
    exact RecordFiles.not_mem_empty file known
  komiRange := rfl
  count := rfl

theorem told_takes (told : Told reader files range book count) {new : RecordFiles}
    {progress : Progress} (takes : Takes reader files book new progress) :
    Told reader files range progress.book (count.add progress.count) where
  table := coupled_takes takes told.table (fun _ _ => rfl) fun _ _ => rfl
  nonstandard := by
    rw [takes_nonstandard_iff takes, told.nonstandard, told.komiRange, takes.known]
    simp only [RecordFiles.mem_union, or_and_right, exists_or]
  komiRange := takes.komiRange.trans told.komiRange
  count := by
    rw [takes.known, countsOf, RecordFiles.sum_union _ (new_not_known takes), told.count,
      takes.count]
    rfl

/-- Nothing else is told if every known file reads the same. -/
theorem told_later (told : Told reader files range book count) {later : FileSystem}
    (same : ∀ file ∈ book.known, later.readPath file.2 = files.readPath file.2) :
    Told reader later range book count := by
  have sameGames : ∀ file ∈ book.known,
      gamesAt reader later file.1 file.2 = gamesAt reader files file.1 file.2 := by
    intro file known
    rw [gamesAt, gamesAt, same file known]
  have sameCount : ∀ file ∈ book.known,
      countAt reader later file.1 file.2 = countAt reader files file.1 file.2 := by
    intro file known
    rw [countAt, countAt, same file known]
  refine ⟨?_, ?_, told.komiRange, ?_⟩
  · have sameTables : (book.known.toList.map fun file =>
        Crosstable.ofGames (gamesAt reader later file.1 file.2)) =
        book.known.toList.map fun file =>
          Crosstable.ofGames (gamesAt reader files file.1 file.2) := by
      apply List.map_congr_left
      intro file member
      rw [sameGames file (RecordFiles.mem_to_list.mp member)]
    unfold Coupled
    rw [sameTables]
    exact told.table
  · rw [told.nonstandard]
    apply exists_congr
    intro file
    apply and_congr_right
    intro known
    rw [sameGames file known]
  · rw [told.count, countsOf, countsOf]
    apply congrArg List.sum
    apply List.map_congr_left
    intro file member
    rw [sameCount file (RecordFiles.mem_to_list.mp member)]

theorem told_unique {other : Scorebook} {otherCount : IntakeCount}
    (told : Told reader files range book count)
    (toldOther : Told reader files range other otherCount)
    (sameKnown : other.known = book.known) : other = book ∧ otherCount = count := by
  constructor
  · have table : other.table = book.table := by
      rw [toldOther.table, told.table, sameKnown]
    have nonstandard : other.nonstandard = book.nonstandard := by
      rw [Bool.eq_iff_iff, toldOther.nonstandard, told.nonstandard, sameKnown]
    have komiRange := toldOther.komiRange.trans told.komiRange.symm
    obtain ⟨_, _, _, _⟩ := book
    obtain ⟨_, _, _, _⟩ := other
    simp_all
  · rw [told.count, toldOther.count, sameKnown]

end KifuRatings.Scorebook
