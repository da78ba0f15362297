import KifuRatings.Proofs.Decimal.Grid
import KifuRatings.Proofs.Decimal.Numeral
import KifuRatings.Proofs.Decimal.Scientific

/-!
# Numbers read back

The text that is written of a finite double is read as the same double, the sign of zero
included.
-/

open Float.Model.UnpackedFloat

namespace KifuRatings.Decimal

theorem shortest_of_zero {value : Float} {negative narrow : Bool} {exponent : ℤ}
    (parts : Parts.of value = .finite negative 0 exponent narrow) :
    shortest value = signed negative ['0'] := by
  rw [shortest, parts]
  rfl

theorem shortest_of_finite {value : Float} {negative narrow : Bool} {mantissa : ℕ} {exponent : ℤ}
    (parts : Parts.of value = .finite negative mantissa exponent narrow)
    (isDouble : IsDouble mantissa exponent)
    (dense : mantissa = 2 ^ 52 → exponent ≠ -1074 → narrow = true) :
    ∃ text number, shortest value = signed negative text ∧ Numeral text number ∧ 0 < number ∧
      Around number mantissa exponent := by
  obtain ⟨count, grid, digits, positive, around⟩ := shortest_digits_around isDouble dense
  have nonzero : (mantissa == 0) = false := by simpa using isDouble.positive.ne'
  refine ⟨_, _, ?_, positional_numeral count grid, ?_, around⟩
  · rw [shortest, parts]
    simp only [nonzero, digits, Bool.false_eq_true, if_false]
  · have some : (0 : ℚ) < count := by exact_mod_cast positive
    positivity

theorem read_unsigned_around {text : List Char} {number : ℚ} {mantissa : ℕ} {exponent : ℤ}
    (numeral : Numeral text number) (positive : 0 < number) (isDouble : IsDouble mantissa exponent)
    (around : Around number mantissa exponent) :
    readUnsigned? text = some (ofParts .positive isDouble) := by
  obtain ⟨significand, power, read, rfl⟩ := numeral.read
  have some : 0 < significand := by
    apply Nat.pos_of_ne_zero
    rintro rfl
    rw [Nat.cast_zero, zero_mul] at positive
    exact lt_irrefl 0 positive
  rw [read, scientific_around some isDouble around]

theorem read_shortest {value : Float} (finite : value.isFinite = true) :
    readFloat? (shortest value) = some value := by
  cases shape_of value with
  | special notFinite => rw [notFinite] at finite; cases finite
  | zero sign parts =>
      rw [shortest_of_zero parts, read_float_signed _ ⟨'0', [], rfl, rfl⟩]
      cases sign <;> rfl
  | finite sign isDouble parts =>
      obtain ⟨text, number, written, numeral, positive, around⟩ :=
        shortest_of_finite parts isDouble fun power normal => decide_eq_true ⟨power, normal⟩
      rw [written, read_float_signed _ numeral.head,
        read_unsigned_around numeral positive isDouble around]
      cases sign with
      | negative => exact congrArg some (neg_of_parts isDouble)
      | positive => rfl

theorem read_special {value : Float} (notFinite : value.isFinite = false) :
    ∃ read, readFloat? (shortest value) = some read ∧ read.isFinite = false := by
  cases shape_of value with
  | special _ parts =>
      rcases parts with nan | ⟨negative, infinite⟩
      · have written : shortest value = nanText := by rw [shortest, nan]
        rw [written]
        exact ⟨0.0 / 0.0, rfl, rfl⟩
      · have written : shortest value = signed negative infinityText := by rw [shortest, infinite]
        rw [written]
        cases negative with
        | true => exact ⟨-(1.0 / 0.0), rfl, rfl⟩
        | false => exact ⟨1.0 / 0.0, rfl, rfl⟩
  | zero sign => rw [is_finite_of_zero] at notFinite; cases notFinite
  | finite sign isDouble => rw [is_finite_of_parts] at notFinite; cases notFinite

/-! ## The characters of a number -/

theorem mem_signed {negative : Bool} {text : List Char} {character : Char}
    (written : character ∈ (signed negative text).toList) : character = '-' ∨ character ∈ text := by
  rw [signed, String.toList_ofList] at written
  cases negative with
  | true => exact List.mem_cons.mp written
  | false => exact .inr written

theorem shortest_characters (value : Float) : ∀ character ∈ (shortest value).toList,
    isDigit character = true ∨ character ∈ ['-', '.', 'N', 'a', 'i', 'n', 'f'] := by
  intro character written
  cases shape_of value with
  | special _ parts =>
      rcases parts with nan | ⟨negative, infinite⟩
      · rw [shortest, nan] at written
        simp [nanText] at written
        grind
      · rw [shortest, infinite] at written
        rcases mem_signed written with rfl | letter
        · exact .inr (by decide)
        · simp [infinityText] at letter
          grind
  | zero sign parts =>
      rw [shortest_of_zero parts] at written
      rcases mem_signed written with rfl | digit
      · exact .inr (by decide)
      · rw [List.mem_singleton.mp digit]
        exact .inl (by decide)
  | finite sign isDouble parts =>
      obtain ⟨text, number, same, numeral, _⟩ :=
        shortest_of_finite parts isDouble fun power normal => decide_eq_true ⟨power, normal⟩
      rw [same] at written
      rcases mem_signed written with rfl | inText
      · exact .inr (by decide)
      rcases numeral.characters character inText with digit | rfl
      · exact .inl digit
      · exact .inr (by decide)

/-! ## Counts -/

theorem read_count_unsigned {text : List Char} (all : AllDigits text) (some : text ≠ [])
    (bound : ofDigits text < 4294967296) :
    readCount? (String.ofList text) = .some (UInt32.ofNat (ofDigits text)) := by
  have digits : text.all isDigit = true := List.all_eq_true.mpr all
  have given : text.isEmpty = false := by simpa using some
  unfold readCount?
  rw [String.toList_ofList]
  split
  · exact absurd (all '+' List.mem_cons_self) (by decide)
  · simp only [given, digits, bound, Bool.not_false, Bool.and_self, decide_true, if_true]

theorem read_count_digits (count : UInt32) :
    readCount? (String.ofList (Nat.toDigits 10 count.toNat)) = some count := by
  have value := of_digits_to_digits count.toNat
  rw [read_count_unsigned (all_digits_to_digits _) Nat.toDigits_ne_nil
    (value.symm ▸ count.toNat_lt), value, UInt32.ofNat_toNat]

end KifuRatings.Decimal
