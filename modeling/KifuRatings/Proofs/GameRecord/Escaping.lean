import KifuRatings.GameRecord.Writer
import KifuRatings.Proofs.GameRecord.Grammar

/-!
# What is written in brackets

The writer escapes characters and the reader unescapes bytes. Both agree since a byte below
0x80 occurs in an encoded text only where the character with its number stands.
-/

namespace KifuRatings

namespace Utf8

theorem encode_char_beyond {character : Char} (beyond : 0x7F < character.toNat) :
    ∀ byte ∈ encodeChar character, 0x7F < byte.toNat := by
  have valid : character.toNat < 0x110000 := by
    have bounds : character.toNat < 0xD800 ∨
      (0xDFFF < character.toNat ∧ character.toNat < 0x110000) := character.valid
    omega
  have high : ∀ value, 0x7F < value → value < 256 → 0x7F < (UInt8.ofNat value).toNat := by
    intro value above isByte
    rwa [UInt8.toNat_ofNat_of_lt' isByte]
  intro byte member
  unfold encodeChar at member
  generalize character.toNat = value at beyond valid member
  simp only at member
  split at member
  · omega
  split at member
  · simp only [List.mem_cons, List.not_mem_nil, or_false] at member
    rcases member with rfl | rfl <;> apply high <;> omega
  split at member
  · simp only [List.mem_cons, List.not_mem_nil, or_false] at member
    rcases member with rfl | rfl | rfl <;> apply high <;> omega
  · simp only [List.mem_cons, List.not_mem_nil, or_false] at member
    rcases member with rfl | rfl | rfl | rfl <;> apply high <;> omega

/-- A byte below 0x80 stands for the character with its number. -/
theorem eq_of_mem_encode_char {character : Char} {byte : UInt8}
    (member : byte ∈ encodeChar character) (ascii : byte.toNat ≤ 0x7F) :
    character = Char.ofNat byte.toNat := by
  by_cases small : character.toNat ≤ 0x7F
  · rw [encodeChar] at member
    simp only [if_pos small, List.mem_singleton] at member
    have isByte : character.toNat < 256 := by omega
    rw [member, UInt8.toNat_ofNat_of_lt' isByte, Char.ofNat_toNat]
  · exact absurd (encode_char_beyond (Nat.not_le.mp small) byte member) (Nat.not_lt.mpr ascii)

end Utf8

namespace Property

theorem Written.append_plain {bytes text value : Bytes}
    (plain : ∀ byte ∈ bytes, byte ≠ closeBracket ∧ byte ≠ backslash)
    (rest : Written text value) : Written (bytes ++ text) (bytes ++ value) := by
  induction bytes with
  | nil => exact rest
  | cons byte bytes induction =>
      obtain ⟨unclosed, unescaped⟩ := plain byte List.mem_cons_self
      exact .plain unclosed unescaped
        (induction fun other member => plain other (List.mem_cons_of_mem _ member))

theorem written_escape (text : List Char) :
    Written ((GameRecord.escape text).flatMap Utf8.encodeChar)
      (text.flatMap Utf8.encodeChar) := by
  induction text with
  | nil => exact .nil
  | cons character rest induction =>
      rw [GameRecord.escape, List.flatMap_cons, ← GameRecord.escape, List.flatMap_append,
        List.flatMap_cons]
      by_cases special : character = ']' ∨ character = '\\'
      · rcases special with rfl | rfl <;> exact .escaped (by decide) (by decide) induction
      · obtain ⟨notBracket, notBackslash⟩ := not_or.mp special
        have kept : (character == ']' || character == '\\') = false := by
          simp [notBracket, notBackslash]
        rw [kept]
        simp only [Bool.false_eq_true, if_false, List.flatMap_singleton]
        apply Written.append_plain _ induction
        intro byte member
        constructor
        · rintro rfl
          exact notBracket (Utf8.eq_of_mem_encode_char member (by decide))
        · rintro rfl
          exact notBackslash (Utf8.eq_of_mem_encode_char member (by decide))

end Property

namespace GameRecord

theorem escape_eq_self {text : List Char}
    (plain : ∀ character ∈ text, character ≠ ']' ∧ character ≠ '\\') : escape text = text := by
  induction text with
  | nil => rfl
  | cons character rest induction =>
      obtain ⟨notBracket, notBackslash⟩ := plain character List.mem_cons_self
      have others := induction fun other member => plain other (List.mem_cons_of_mem _ member)
      rw [escape] at others ⊢
      rw [List.flatMap_cons, others]
      simp [notBracket, notBackslash]

end GameRecord

end KifuRatings
