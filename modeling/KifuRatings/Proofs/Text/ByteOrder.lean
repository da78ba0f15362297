import KifuRatings.Text.Utf8
import Mathlib.Data.String.Basic

/-!
# The order of encoded text

Text in the order of its characters is in the order of its bytes as well. A character with a greater
number has more leading bits or greater ones, so the first byte that differs decides.
-/

namespace KifuRatings.Utf8

theorem encode_char_ne_nil (character : Char) : encodeChar character ≠ [] := by
  simp only [encodeChar]
  split_ifs <;> simp

theorem byte_list_lt {low high : Nat} (lowByte : low < 256) (highByte : high < 256)
    (lowRest highRest : Bytes) :
    UInt8.ofNat low :: lowRest < UInt8.ofNat high :: highRest ↔
      low < high ∨ low = high ∧ lowRest < highRest := by
  rw [List.cons_lt_cons_iff, UInt8.lt_iff_toNat_lt, ← UInt8.toNat_inj,
    UInt8.toNat_ofNat_of_lt' lowByte, UInt8.toNat_ofNat_of_lt' highByte]

/-- The first difference between two encoded characters stands inside both. -/
theorem encode_char_lt {left right : Char} (before : left < right) (leftRest rightRest : Bytes) :
    encodeChar left ++ leftRest < encodeChar right ++ rightRest := by
  have less : left.toNat < right.toNat := before
  have bound : ∀ character : Char, character.toNat < 0x110000 := by
    intro character
    have valid : character.toNat < 0xD800 ∨
      (0xDFFF < character.toNat ∧ character.toNat < 0x110000) := character.valid
    omega
  have leftBound := bound left
  have rightBound := bound right
  simp only [encodeChar]
  generalize left.toNat = low at *
  generalize right.toNat = high at *
  -- Each length of the one against each of the other: the first bytes tell lengths apart, and within
  -- a length the bytes are the digits of the number.
  split_ifs <;>
    simp (disch := omega) only [List.cons_append, List.nil_append, byte_list_lt] <;> omega

theorem encode_characters_lt {left right : List Char} (before : List.Lex (· < ·) left right) :
    left.flatMap encodeChar < right.flatMap encodeChar := by
  induction before with
  | @nil character rest =>
      obtain ⟨first, others, starts⟩ := List.exists_cons_of_ne_nil (encode_char_ne_nil character)
      rw [List.flatMap_nil, List.flatMap_cons, starts]
      exact List.Lex.nil
  | cons rest induction =>
      rw [List.flatMap_cons, List.flatMap_cons]
      exact List.append_left_lt induction
  | rel less =>
      rw [List.flatMap_cons, List.flatMap_cons]
      exact encode_char_lt less _ _

theorem encode_lt {left right : String} (before : compare left right = .lt) :
    encode left < encode right :=
  encode_characters_lt (String.lt_iff_toList_lt.mp (compare_lt_iff_lt.mp before))

end KifuRatings.Utf8
