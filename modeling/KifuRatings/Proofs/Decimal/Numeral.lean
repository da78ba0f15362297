import KifuRatings.Decimal.Reader
import Mathlib.Algebra.Order.Field.Power
import Mathlib.Data.List.TakeWhile
import Mathlib.Data.Rat.Cast.Order
import Mathlib.Tactic.NormNum

/-!
# Written digits

A number is written with at most one point among its digits, so neither its sign nor a name can
be taken for another.
-/

namespace KifuRatings.Decimal

/-! ## Digits -/

theorem is_digit_of_to_digits {number : ℕ} {character : Char}
    (digit : character ∈ Nat.toDigits 10 number) : isDigit character = true := by
  have ascii := Nat.isDigit_of_mem_toDigits (by decide) le_rfl digit
  simp only [Char.isDigit, Bool.and_eq_true, decide_eq_true_eq] at ascii
  simp only [isDigit, Bool.and_eq_true, decide_eq_true_eq]
  exact ascii

theorem of_digits_eq (digits : List Char) : ofDigits digits = Nat.ofDigitChars 10 digits 0 := by
  rw [ofDigits, Nat.ofDigitChars_eq_foldl]
  congr 1
  funext total digit
  rw [Nat.mul_comm]
  rfl

@[simp]
theorem of_digits_to_digits (number : ℕ) : ofDigits (Nat.toDigits 10 number) = number := by
  rw [of_digits_eq, Nat.ofDigitChars_ten_toDigits]

theorem of_digits_padded (zeros number : ℕ) :
    ofDigits (List.replicate zeros '0' ++ Nat.toDigits 10 number) = number := by
  rw [of_digits_eq, Nat.ofDigitChars_append, Nat.ofDigitChars_replicate_zero, Nat.mul_zero,
    Nat.ofDigitChars_ten_toDigits]

theorem of_digits_scaled (zeros number : ℕ) :
    ofDigits (Nat.toDigits 10 number ++ List.replicate zeros '0') = number * 10 ^ zeros := by
  rw [of_digits_eq, Nat.ofDigitChars_append, Nat.ofDigitChars_replicate_zero,
    Nat.ofDigitChars_ten_toDigits, Nat.mul_comm]

/-! ## Numerals -/

def AllDigits (text : List Char) : Prop := ∀ character ∈ text, isDigit character = true

theorem all_digits_to_digits (number : ℕ) : AllDigits (Nat.toDigits 10 number) :=
  fun _ => is_digit_of_to_digits

theorem all_digits_zeros (zeros : ℕ) : AllDigits (List.replicate zeros '0') := by
  intro character zero
  rw [List.eq_of_mem_replicate zero]
  rfl

theorem AllDigits.append {left right : List Char} (leftDigits : AllDigits left)
    (rightDigits : AllDigits right) : AllDigits (left ++ right) := by
  intro character mem
  exact (List.mem_append.mp mem).elim (leftDigits character) (rightDigits character)

theorem read_unsigned_whole {digits : List Char} (all : AllDigits digits) (some : digits ≠ []) :
    readUnsigned? digits = .some (scientific (ofDigits digits) 0) := by
  have whole : digits.takeWhile isDigit = digits := List.takeWhile_eq_self_iff.mpr all
  have after : digits.dropWhile isDigit = [] := List.dropWhile_eq_nil_iff.mpr all
  simp [readUnsigned?, whole, after, readExponent?, some]

theorem read_unsigned_point {whole places : List Char} (allWhole : AllDigits whole)
    (allPlaces : AllDigits places) (some : whole ≠ []) :
    readUnsigned? (whole ++ '.' :: places) =
      .some (scientific (ofDigits (whole ++ places)) (-(places.length : ℤ))) := by
  have before : (whole ++ '.' :: places).takeWhile isDigit = whole := by
    rw [List.takeWhile_append_of_pos allWhole]
    simp [isDigit]
  have after : (whole ++ '.' :: places).dropWhile isDigit = '.' :: places := by
    rw [List.dropWhile_append_of_pos allWhole]
    rfl
  have taken : places.takeWhile isDigit = places := List.takeWhile_eq_self_iff.mpr allPlaces
  have rest : places.dropWhile isDigit = [] := List.dropWhile_eq_nil_iff.mpr allPlaces
  simp [readUnsigned?, before, after, taken, rest, readExponent?, some]

/-- Digits with at most one point among them, and the number that they denote. -/
inductive Numeral : List Char → ℚ → Prop where
  | whole {digits : List Char} (all : AllDigits digits) (some : digits ≠ []) :
      Numeral digits (ofDigits digits)
  | point {whole places : List Char} (allWhole : AllDigits whole) (allPlaces : AllDigits places)
      (some : whole ≠ []) :
      Numeral (whole ++ '.' :: places) (ofDigits (whole ++ places) / 10 ^ places.length)

section Numeral

variable {text : List Char} {number : ℚ}

theorem Numeral.read (numeral : Numeral text number) :
    ∃ significand exponent, readUnsigned? text = some (scientific significand exponent) ∧
      (significand : ℚ) * 10 ^ exponent = number := by
  cases numeral with
  | whole all some => exact ⟨_, _, read_unsigned_whole all some, by simp⟩
  | point allWhole allPlaces some =>
      refine ⟨_, _, read_unsigned_point allWhole allPlaces some, ?_⟩
      rw [zpow_neg, zpow_natCast, div_eq_mul_inv]

theorem Numeral.head (numeral : Numeral text number) :
    ∃ digit rest, text = digit :: rest ∧ isDigit digit = true := by
  cases numeral with
  | whole all some =>
      obtain ⟨digit, rest, rfl⟩ := List.exists_cons_of_ne_nil some
      exact ⟨digit, rest, rfl, all digit List.mem_cons_self⟩
  | point allWhole allPlaces some =>
      obtain ⟨digit, rest, rfl⟩ := List.exists_cons_of_ne_nil some
      exact ⟨digit, _, rfl, allWhole digit List.mem_cons_self⟩

theorem Numeral.characters (numeral : Numeral text number) :
    ∀ character ∈ text, isDigit character = true ∨ character = '.' := by
  intro character mem
  cases numeral with
  | whole all some => exact .inl (all character mem)
  | point allWhole allPlaces some =>
      rcases List.mem_append.mp mem with inWhole | inRest
      · exact .inl (allWhole character inWhole)
      rcases List.mem_cons.mp inRest with point | inPlaces
      · exact .inr point
      · exact .inl (allPlaces character inPlaces)

end Numeral

theorem positional_numeral (count : ℕ) (grid : ℤ) :
    Numeral (positional count grid) (count * 10 ^ grid) := by
  cases grid with
  | ofNat zeros =>
      by_cases zero : count = 0
      · subst zero
        have numeral := Numeral.whole (all_digits_zeros 1) (by simp)
        rw [Nat.cast_zero, zero_mul]
        exact numeral
      · have digits : positional count (.ofNat zeros) =
            Nat.toDigits 10 count ++ List.replicate zeros '0' := if_neg (by simpa using zero)
        have numeral := Numeral.whole ((all_digits_to_digits count).append (all_digits_zeros zeros))
          (by simp)
        rw [of_digits_scaled] at numeral
        rw [digits]
        simpa using numeral
  | negSucc places =>
      generalize shown : List.replicate (places + 2 - (Nat.toDigits 10 count).length) '0' ++
        Nat.toDigits 10 count = padded
      have all : AllDigits padded := shown ▸ (all_digits_zeros _).append (all_digits_to_digits _)
      have value : ofDigits padded = count := shown ▸ of_digits_padded _ _
      have long : places + 2 ≤ padded.length := by
        rw [← shown, List.length_append, List.length_replicate]
        omega
      have digits : positional count (.negSucc places) =
          padded.take (padded.length - (places + 1)) ++
            '.' :: padded.drop (padded.length - (places + 1)) := by
        rw [← shown]
        rfl
      have some : padded.take (padded.length - (places + 1)) ≠ [] := by
        rw [← List.length_pos_iff, List.length_take]
        omega
      have allPlaces : AllDigits (padded.drop (padded.length - (places + 1))) :=
        fun _ mem => all _ (List.mem_of_mem_drop mem)
      have numeral := Numeral.point (fun _ mem => all _ (List.mem_of_mem_take mem)) allPlaces some
      have count : padded.length - (padded.length - (places + 1)) = places + 1 := by omega
      rw [List.take_append_drop, value, List.length_drop, count] at numeral
      rw [digits, zpow_negSucc, ← div_eq_mul_inv]
      exact numeral

/-! ## Signs and names -/

theorem split_sign_signed {digit : Char} (rest : List Char) (isDigit : isDigit digit = true)
    (negative : Bool) :
    splitSign (if negative then '-' :: digit :: rest else digit :: rest) =
      (negative, digit :: rest) := by
  cases negative with
  | true => rfl
  | false =>
      simp only [Bool.false_eq_true, if_false]
      unfold splitSign
      split
      · rename_i same
        cases same
        contradiction
      · rename_i same
        cases same
        contradiction
      · rfl

theorem to_lower_digit {digit : Char} (isDigit : isDigit digit = true) : digit.toLower = digit := by
  simp only [Decimal.isDigit, Bool.and_eq_true, decide_eq_true_eq, Char.le_def] at isDigit
  apply dif_neg
  rintro ⟨capital, _⟩
  exact absurd (UInt32.le_trans capital isDigit.2) (by decide)

theorem name_ne {digit letter : Char} (rest letters : List Char) (starts : isDigit digit = true)
    (differs : isDigit letter = false) :
    (String.ofList (digit :: rest) == String.ofList (letter :: letters)) = false := by
  rw [beq_eq_false_iff_ne]
  intro same
  have heads := congrArg String.toList same
  rw [String.toList_ofList, String.toList_ofList] at heads
  cases heads
  rw [starts] at differs
  cases differs

theorem read_float_signed {text : List Char} (negative : Bool)
    (starts : ∃ digit rest, text = digit :: rest ∧ isDigit digit = true) :
    readFloat? (signed negative text) =
      (readUnsigned? text).map fun value => if negative then -value else value := by
  obtain ⟨digit, rest, rfl, digitChar⟩ := starts
  have names : ∀ letter letters, isDigit letter = false →
      (String.ofList ((digit :: rest).map Char.toLower) == String.ofList (letter :: letters)) =
        false := by
    intro letter letters differs
    rw [List.map_cons, to_lower_digit digitChar]
    exact name_ne _ _ digitChar differs
  have infinite : (String.ofList ((digit :: rest).map Char.toLower) == "inf") = false :=
    names 'i' ['n', 'f'] rfl
  have infinity : (String.ofList ((digit :: rest).map Char.toLower) == "infinity") = false :=
    names 'i' ['n', 'f', 'i', 'n', 'i', 't', 'y'] rfl
  have nan : (String.ofList ((digit :: rest).map Char.toLower) == "nan") = false :=
    names 'n' ['a', 'n'] rfl
  rw [readFloat?, signed, String.toList_ofList, split_sign_signed rest digitChar]
  simp only [infinite, infinity, nan, Bool.or_self, Bool.false_eq_true, if_false]

/-! ## Spaces -/

theorem not_mem_of_all_digits {text : List Char} (all : text.all isDigit = true) : ' ' ∉ text := by
  intro member
  have digit := List.all_eq_true.mp all ' ' member
  cases digit

theorem mem_split_sign {text : List Char} (member : ' ' ∈ text) : ' ' ∈ (splitSign text).2 := by
  unfold splitSign
  split <;> simpa using member

theorem exponent_with_space {text : List Char} (member : ' ' ∈ text) : readExponent? text = none := by
  cases text with
  | nil => cases member
  | cons marker rest =>
      rw [readExponent?]
      split
      rename_i negative digits parts
      split
      · rename_i accepted
        rw [Bool.and_eq_true, Bool.and_eq_true] at accepted
        rcases List.mem_cons.mp member with isMarker | inside
        · rw [← isMarker] at accepted
          cases accepted.1.1
        · have inDigits := mem_split_sign inside
          rw [parts] at inDigits
          exact absurd inDigits (not_mem_of_all_digits accepted.2)
      · rfl

theorem mem_behind_digits {text : List Char} (member : ' ' ∈ text) :
    ' ' ∈ text.dropWhile isDigit := by
  rw [← List.takeWhile_append_dropWhile (p := isDigit) (l := text)] at member
  exact (List.mem_append.mp member).resolve_left (not_mem_of_all_digits List.all_takeWhile)

theorem unsigned_with_space {text : List Char} (member : ' ' ∈ text) : readUnsigned? text = none := by
  have behindWhole := mem_behind_digits member
  rw [readUnsigned?]
  split
  rename_i places afterPlaces parts
  have behindPlaces : ' ' ∈ afterPlaces := by
    split at parts
    · rename_i rest pointed
      cases parts
      rw [pointed] at behindWhole
      exact mem_behind_digits (by simpa using behindWhole)
    · cases parts
      exact behindWhole
  rw [exponent_with_space behindPlaces]
  rfl

theorem float_with_space {text : String} (member : ' ' ∈ text.toList) : readFloat? text = none := by
  have inside := mem_split_sign member
  rw [readFloat?]
  split
  rename_i negative rest parts
  rw [parts] at inside
  have lowered : ' ' ∈ rest.map Char.toLower := List.mem_map.mpr ⟨' ', inside, rfl⟩
  have notNamed : ∀ name : String, ' ' ∉ name.toList →
      (String.ofList (rest.map Char.toLower) == name) = false := by
    intro name noSpace
    rw [beq_eq_false_iff_ne]
    rintro rfl
    exact noSpace (by simpa using lowered)
  simp [notNamed, unsigned_with_space inside]

theorem count_with_space {text : String} (member : ' ' ∈ text.toList) : readCount? text = none := by
  have refused : ∀ digits : List Char, ' ' ∈ digits → digits.all isDigit = false :=
    fun digits inside => Bool.eq_false_iff.mpr fun all => not_mem_of_all_digits all inside
  rw [readCount?]
  split
  · rename_i rest signedText
    have inside : ' ' ∈ rest := by simpa [signedText] using member
    simp only [refused rest inside, Bool.and_false, Bool.false_and, Bool.false_eq_true, if_false]
  · simp only [refused _ member, Bool.and_false, Bool.false_and, Bool.false_eq_true, if_false]

end KifuRatings.Decimal
