import KifuRatings.Decimal.Reader
import KifuRatings.Text.Blank
import Mathlib.Data.List.DropRight
import Mathlib.Data.List.TakeWhile

/-!
# Text on a single line

What flattening and trimming make of a text, and which texts they leave as they are.
-/

namespace KifuRatings.Text

theorem not_blank_of_digit {character : Char} (digit : Decimal.isDigit character = true) :
    isBlank character = false := by
  simp only [Decimal.isDigit, Bool.and_eq_true, decide_eq_true_eq] at digit
  have low : 48 ≤ character.toNat := digit.1
  have high : character.toNat ≤ 57 := digit.2
  simp [isBlank]
  omega

/-- Spaces are the only blanks, and none stands at an end. -/
structure SingleLine (text : String) : Prop where
  spaces : ∀ character ∈ text.toList, isBlank character = true → character = ' '
  start : ∀ character ∈ text.toList.head?, character ≠ ' '
  stop : ∀ character ∈ text.toList.getLast?, character ≠ ' '

theorem flatten_spaces {text : List Char} :
    ∀ character ∈ flatten text, isBlank character = true → character = ' ' := by
  intro character flat blank
  obtain ⟨original, _, same⟩ := List.mem_map.mp flat
  split at same
  · exact same.symm
  · subst same
    contradiction

theorem flatten_eq_self {text : List Char}
    (spaces : ∀ character ∈ text, isBlank character = true → character = ' ') :
    flatten text = text := by
  have unchanged : ∀ character ∈ text,
      (if isBlank character then ' ' else character) = id character := by
    intro character member
    split
    · exact (spaces character member ‹_›).symm
    · rfl
  rw [flatten, List.map_congr_left unchanged, List.map_id]

theorem trim_eq (text : List Char) : trim text = (text.dropWhile isBlank).rdropWhile isBlank :=
  rfl

theorem mem_of_trim_end {text : List Char} {character : Char} (kept : character ∈ trimEnd text) :
    character ∈ text :=
  (List.rdropWhile_prefix isBlank text).mem kept

theorem mem_of_trim {text : List Char} {character : Char} (kept : character ∈ trim text) :
    character ∈ text :=
  (List.dropWhile_suffix _).mem (mem_of_trim_end kept)

theorem trim_start {text : List Char} :
    ∀ character ∈ (trim text).head?, isBlank character = false := by
  intro character head
  have first : (text.dropWhile isBlank).head? = some character := by
    obtain ⟨rest, whole⟩ := List.rdropWhile_prefix isBlank (text.dropWhile isBlank)
    rw [← whole, List.head?_append, ← trim_eq, Option.mem_def.mp head]
    rfl
  have notBlank := List.head?_dropWhile_not isBlank text
  rw [first] at notBlank
  simpa using notBlank

theorem trim_stop {text : List Char} :
    ∀ character ∈ (trim text).getLast?, isBlank character = false := by
  intro character last
  obtain ⟨some, rfl⟩ := List.mem_getLast?_eq_getLast last
  exact Bool.eq_false_iff.mpr (List.rdropWhile_last_not isBlank (text.dropWhile isBlank) some)

theorem trim_eq_self {text : List Char}
    (start : ∀ character ∈ text.head?, isBlank character = false)
    (stop : ∀ character ∈ text.getLast?, isBlank character = false) : trim text = text := by
  have first : text.dropWhile isBlank = text := by
    rw [List.dropWhile_eq_self_iff]
    intro some
    simpa using start _ (List.head?_eq_getElem? ▸ List.getElem?_eq_getElem some)
  rw [trim_eq, first, List.rdropWhile_eq_self_iff]
  intro some
  simpa using stop _ (List.getLast?_eq_getLast_of_ne_nil some)

theorem single_line_single_line (text : String) : SingleLine (singleLine text) := by
  have notSpace : ∀ character, isBlank character = false → character ≠ ' ' := by
    rintro character notBlank rfl
    contradiction
  constructor <;> rw [singleLine, String.toList_ofList] <;> intro character
  · exact fun kept => flatten_spaces character (mem_of_trim kept)
  · exact fun head => notSpace character (trim_start character head)
  · exact fun last => notSpace character (trim_stop character last)

theorem single_line_eq_self {text : String} : singleLine text = text ↔ SingleLine text := by
  constructor
  · intro same
    exact same ▸ single_line_single_line text
  · rintro ⟨spaces, start, stop⟩
    have notBlank : ∀ character ∈ text.toList, character ≠ ' ' → isBlank character = false :=
      fun character member differs => by simpa using mt (spaces character member) differs
    rw [singleLine, flatten_eq_self spaces, trim_eq_self, String.ofList_toList]
    · exact fun character head =>
        notBlank character (List.mem_of_mem_head? head) (start character head)
    · exact fun character last =>
        notBlank character (List.mem_of_mem_getLast? last) (stop character last)

theorem single_line_of_no_blank {text : String}
    (plain : ∀ character ∈ text.toList, isBlank character = false) :
    singleLine text = text := by
  have notSpace : ∀ character ∈ text.toList, character ≠ ' ' := by
    rintro character member rfl
    exact absurd (plain ' ' member) (by decide)
  rw [single_line_eq_self]
  exact ⟨fun character member blank => absurd blank (by simp [plain character member]),
    fun character head => notSpace character (List.mem_of_mem_head? head),
    fun character last => notSpace character (List.mem_of_mem_getLast? last)⟩

end KifuRatings.Text
