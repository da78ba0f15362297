import KifuRatings.Proofs.GameRecord.Edits

/-!
# Blanks around a record

Blanks in front of a record are skipped. Behind it they are skipped where the reader is between two
tokens, and where it is inside a value or behind a backslash they are read without coming to a
bracket. So the text ends for the reader as it would without them, and for the same reason.
-/

namespace KifuRatings.Property

/-- Text without a closing bracket ends no value. -/
theorem read_value_followed {after : Bytes} (unclosed : closeBracket ∉ after) (bytes : Bytes) :
    readValue (bytes ++ after) =
      (readValue bytes).map fun (value, rest) => (value, rest ++ after) := by
  rcases every_text_splits bytes with ⟨text, value, rest, written, rfl⟩ | unfinished
  · rw [read_value_written written, List.append_assoc, List.cons_append,
      read_value_written written]
    rfl
  · rw [read_value_unfinished unfinished]
    rcases every_text_splits (bytes ++ after) with ⟨text, value, rest, written, same⟩ | longer
    · rcases List.append_eq_append_iff.mp same with ⟨front, _, isAfter⟩ | ⟨back, isBytes, isRest⟩
      · exact absurd (by simp [isAfter]) unclosed
      · cases back with
        | nil =>
            rw [List.nil_append] at isRest
            exact absurd (by simp [← isRest]) unclosed
        | cons bracket inside =>
            -- The bracket that closes the value would already stand in front.
            have closed := read_value_written written inside
            obtain ⟨rfl, _⟩ := List.cons.inj isRest
            rw [← isBytes, read_value_unfinished unfinished] at closed
            cases closed
    · exact read_value_unfinished longer

theorem skip_blank_followed {bytes inside : Bytes} {byte : UInt8}
    (started : skipBlank bytes = byte :: inside) (after : Bytes) :
    skipBlank (bytes ++ after) = byte :: (inside ++ after) := by
  rw [skipBlank] at started
  rw [skipBlank, List.dropWhile_append, started]
  rfl

section Blanks

variable {after : Bytes} (blank : Blank after)

include blank

theorem unclosed_of_blank : closeBracket ∉ after := by
  intro member
  have isBlank := blank closeBracket member
  revert isBlank
  decide

theorem skip_blank_ended {bytes : Bytes} (ended : skipBlank bytes = []) :
    skipBlank (bytes ++ after) = [] :=
  skip_blank_eq_nil.mpr (blank_append (skip_blank_eq_nil.mp ended) blank)

theorem letters_followed (bytes : Bytes) :
    (bytes ++ after).takeWhile isCapital = bytes.takeWhile isCapital ∧
      (bytes ++ after).dropWhile isCapital = bytes.dropWhile isCapital ++ after := by
  have noLetter : ∀ byte ∈ (after ++ []).head?, isCapital byte = false :=
    no_letter_behind_blanks blank (by simp)
  have stops : after.takeWhile isCapital = [] ∧ after.dropWhile isCapital = after := by
    cases after with
    | nil => exact ⟨rfl, rfl⟩
    | cons byte rest =>
        have notCapital : isCapital byte = false := noLetter byte rfl
        simp [notCapital]
  constructor
  · rw [List.takeWhile_append, stops.1, List.append_nil]
    split
    · rename_i all
      exact ((List.takeWhile_prefix isCapital).eq_of_length all).symm
    · rfl
  · rw [List.dropWhile_append, stops.2]
    split
    · rename_i none
      rw [List.isEmpty_iff.mp none, List.nil_append]
    · rfl

/-- Blanks behind values are skipped, or left behind what is left. -/
theorem read_values_followed (ident : String) (bytes : Bytes) :
    ∃ more, Blank more ∧ readValues ident (bytes ++ after) =
      (readValues ident bytes).map fun (values, rest) => (values, rest ++ more) := by
  rw [read_values_step ident bytes, read_values_step ident (bytes ++ after)]
  cases started : skipBlank bytes with
  | nil =>
      rw [skip_blank_ended blank started]
      exact ⟨[], by simp [Blank], rfl⟩
  | cons byte inside =>
      rw [skip_blank_followed started]
      dsimp only
      split
      · rw [read_value_followed (unclosed_of_blank blank)]
        cases closed : readValue inside with
        | none => exact ⟨[], by simp [Blank], rfl⟩
        | some result =>
            obtain ⟨value, rest⟩ := result
            have shorter : rest.length < bytes.length := by
              have afterValue := length_of_read_value closed
              have afterBlank := List.length_dropWhile_le isBlankByte bytes
              rw [← skipBlank, started, List.length_cons] at afterBlank
              omega
            obtain ⟨more, blankMore, same⟩ := read_values_followed ident rest
            refine ⟨more, blankMore, ?_⟩
            change (readValues ident (rest ++ after)).map _ = ((readValues ident rest).map _).map _
            rw [same]
            cases readValues ident rest <;> rfl
      · exact ⟨after, blank, rfl⟩
termination_by bytes.length

omit blank in
theorem read_all_followed {after : Bytes} (blank : Blank after) (bytes : Bytes) :
    readAll (bytes ++ after) = readAll bytes := by
  rw [read_all_step bytes, read_all_step (bytes ++ after)]
  cases started : skipBlank bytes with
  | nil => rw [skip_blank_ended blank started]
  | cons byte rest =>
      rw [skip_blank_followed started]
      obtain ⟨sameLetters, behindLetters⟩ := letters_followed blank rest
      obtain ⟨more, blankMore, sameValues⟩ := read_values_followed blank
        (ofCapitals (byte :: rest.takeWhile isCapital)) (rest.dropWhile isCapital)
      dsimp only
      rw [sameLetters, behindLetters, sameValues]
      split
      · rfl
      · split
        · cases read : readValues (ofCapitals (byte :: rest.takeWhile isCapital))
              (rest.dropWhile isCapital) with
          | error cause => rfl
          | ok result =>
              obtain ⟨values, behind⟩ := result
              cases values with
              | nil => rfl
              | cons value further =>
                  have shorter : behind.length < bytes.length := by
                    have afterValues := length_of_read_values read
                    have afterLetters := List.length_dropWhile_le isCapital rest
                    have afterBlank := List.length_dropWhile_le isBlankByte bytes
                    rw [← skipBlank, started, List.length_cons] at afterBlank
                    omega
                  change (readAll (behind ++ more)).map _ = (readAll behind).map _
                  rw [read_all_followed blankMore behind]
        · rfl
termination_by bytes.length

theorem read_root_followed (raw : Bytes) : readRoot (raw ++ after) = readRoot raw := by
  rw [readRoot, readRoot]
  cases started : skipBlank raw with
  | nil => rw [skip_blank_ended blank started]
  | cons opening inside =>
      rw [skip_blank_followed started]
      dsimp only
      split
      · cases opened : skipBlank inside with
        | nil => rw [skip_blank_ended blank opened]
        | cons start rest =>
            rw [skip_blank_followed opened]
            dsimp only
            rw [read_all_followed blank]
      · rfl

end Blanks

theorem read_root_padded {before after : Bytes} (blankBefore : Blank before)
    (blankAfter : Blank after) (raw : Bytes) :
    readRoot (before ++ (raw ++ after)) = readRoot raw := by
  rw [read_root_skip blankBefore, read_root_followed blankAfter]

end KifuRatings.Property

namespace KifuRatings.GameRecord

open Property

theorem read_padded {before after : Bytes} (blankBefore : Blank before) (blankAfter : Blank after)
    (raw : Bytes) : read (before ++ (raw ++ after)) = read raw := by
  have stages : ∀ raw, read raw = (readRoot raw).bind ofProperties := fun _ => rfl
  rw [stages, stages, read_root_padded blankBefore blankAfter]

end KifuRatings.GameRecord
