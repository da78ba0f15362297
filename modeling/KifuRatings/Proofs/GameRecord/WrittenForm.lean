import KifuRatings.Proofs.Decimal.RoundTrip
import KifuRatings.Proofs.GameRecord.Escaping
import KifuRatings.Proofs.GameRecord.RootNode
import KifuRatings.Proofs.Text.SingleLine

/-!
# The written form of a record

A written record is a root node with one property for each of its fields. Only names need
escaping, and nothing but names can bring in blanks.
-/

namespace KifuRatings.GameRecord

open Property

def fields (record : GameRecord) : List (String × String) :=
  [("GM", "1"), ("FF", "4"), ("PB", record.black), ("PW", record.white),
    ("RE", String.ofList (result record.winner)), ("KM", Decimal.shortest record.komi)]
    ++ (record.handicap.map fun stones =>
      ("HA", String.ofList (Nat.toDigits 10 stones.toNat))).toList

def toProperty (field : String × String) : Property := ⟨field.1, Utf8.encode field.2, []⟩

/-! ## Characters that are neither blank nor escaped -/

def isPlain (character : Char) : Bool :=
  !(Text.isBlank character || character == ']' || character == '\\')

theorem plain_digit {character : Char} (digit : Decimal.isDigit character = true) :
    isPlain character = true := by
  have notBlank := Text.not_blank_of_digit digit
  simp only [Decimal.isDigit, Bool.and_eq_true, decide_eq_true_eq] at digit
  have high : character.toNat ≤ 57 := digit.2
  have notBracket : character ≠ ']' := by
    rintro rfl
    exact absurd high (by decide)
  have notBackslash : character ≠ '\\' := by
    rintro rfl
    exact absurd high (by decide)
  simp [isPlain, notBlank, notBracket, notBackslash]

theorem plain_result (winner : Option Color) :
    ∀ character ∈ result winner, isPlain character = true := by
  rw [← List.all_eq_true]
  cases winner with
  | none => rfl
  | some color => cases color <;> rfl

theorem plain_shortest (komi : Float) :
    ∀ character ∈ (Decimal.shortest komi).toList, isPlain character = true := by
  have symbols : ['-', '.', 'N', 'a', 'i', 'n', 'f'].all isPlain = true := rfl
  intro character written
  rcases Decimal.shortest_characters komi character written with digit | symbol
  · exact plain_digit digit
  · exact List.all_eq_true.mp symbols character symbol

theorem plain_digits (number : Nat) :
    ∀ character ∈ Nat.toDigits 10 number, isPlain character = true :=
  fun _ digit => plain_digit (Decimal.is_digit_of_to_digits digit)

theorem not_blank_of_plain {character : Char} (plain : isPlain character = true) :
    Text.isBlank character = false := by
  simp only [isPlain, Bool.not_eq_true', Bool.or_eq_false_iff] at plain
  exact plain.1.1

theorem escape_plain {text : List Char} (plain : ∀ character ∈ text, isPlain character = true) :
    escape text = text := by
  apply escape_eq_self
  intro character member
  have unescaped := plain character member
  simp only [isPlain, Bool.not_eq_true', Bool.or_eq_false_iff, beq_eq_false_iff_ne] at unescaped
  exact ⟨unescaped.1.2, unescaped.2⟩

theorem single_line_plain {text : String}
    (plain : ∀ character ∈ text.toList, isPlain character = true) :
    Text.singleLine text = text :=
  Text.single_line_of_no_blank fun character member =>
    not_blank_of_plain (plain character member)

/-! ## The written root node -/

theorem write_eq (record : GameRecord) :
    record.write.toList = ['(', ';'] ++
      (record.fields.flatMap fun field => property field.1 (escape field.2.toList)) ++ [')'] := by
  have game : escape ['1'] = ['1'] := by decide
  have format : escape ['4'] = ['4'] := by decide
  have komi := escape_plain (plain_shortest record.komi)
  have winner := escape_plain (plain_result record.winner)
  rw [write, String.toList_ofList, fields]
  cases record.handicap with
  | none => simp [game, format, komi, winner]
  | some stones =>
      have digits := escape_plain (plain_digits stones.toNat)
      simp [game, format, komi, winner, digits]

theorem is_property {field : String × String} (letters : Letters (Utf8.encode field.1))
    (named : ofCapitals (Utf8.encode field.1) = field.1) :
    IsProperty ((property field.1 (escape field.2.toList)).flatMap Utf8.encodeChar)
      (toProperty field) := by
  have values := Values.cons (written_escape field.2.toList) (by simp [Blank] : Blank [])
    Values.nil
  have whole := IsProperty.mk letters (by simp [Blank] : Blank []) values
  have text : (property field.1 (escape field.2.toList)).flatMap Utf8.encodeChar =
      Utf8.encode field.1 ++ ([] ++ openBracket ::
        ((escape field.2.toList).flatMap Utf8.encodeChar ++ closeBracket :: ([] ++ []))) := by
    rw [property, List.flatMap_append, List.flatMap_cons, List.flatMap_append]
    rfl
  rw [named] at whole
  rw [text]
  exact whole

theorem properties_written {fields : List (String × String)}
    (idents : ∀ field ∈ fields, Letters (Utf8.encode field.1) ∧
      ofCapitals (Utf8.encode field.1) = field.1) :
    Properties ((fields.flatMap fun field => property field.1 (escape field.2.toList)).flatMap
      Utf8.encodeChar) (fields.map toProperty) := by
  induction fields with
  | nil => exact .nil
  | cons field fields induction =>
      obtain ⟨letters, named⟩ := idents field List.mem_cons_self
      rw [List.flatMap_cons, List.flatMap_append]
      exact .cons (is_property letters named)
        (induction fun other member => idents other (List.mem_cons_of_mem _ member))

theorem ident_of_field (record : GameRecord) : ∀ field ∈ record.fields,
    field.1 ∈ ["GM", "FF", "PB", "PW", "RE", "KM", "HA"] := by
  intro field member
  have ident := List.mem_map_of_mem (f := Prod.fst) member
  cases handicap : record.handicap <;> simp [fields, handicap] at ident ⊢ <;> tauto

theorem idents_of_fields (record : GameRecord) :
    ∀ field ∈ record.fields, Letters (Utf8.encode field.1) ∧
      ofCapitals (Utf8.encode field.1) = field.1 := by
  have spelled : ∀ ident ∈ ["GM", "FF", "PB", "PW", "RE", "KM", "HA"],
      (Utf8.encode ident ≠ [] ∧ (Utf8.encode ident).all isCapital = true) ∧
        ofCapitals (Utf8.encode ident) = ident := by decide
  intro field member
  obtain ⟨⟨some, capitals⟩, named⟩ := spelled field.1 (ident_of_field record field member)
  exact ⟨⟨some, List.all_eq_true.mp capitals⟩, named⟩

theorem root_node_written (record : GameRecord) :
    RootNode (Utf8.encode record.write) (record.fields.map toProperty) := by
  have noBlanks : Blank [] := by simp [Blank]
  have ended : Ended [closeParenthesis] := by simp [Ended]; decide
  have node := RootNode.mk (.mk noBlanks noBlanks noBlanks)
    (properties_written (idents_of_fields record)) ended
  have text : Utf8.encode record.write = [openParenthesis, semicolon] ++
      ((record.fields.flatMap fun field => property field.1 (escape field.2.toList)).flatMap
        Utf8.encodeChar ++ [closeParenthesis]) := by
    rw [Utf8.encode, write_eq, List.flatMap_append, List.flatMap_append, List.append_assoc]
    rfl
  rw [text]
  exact node

/-! ## Blanks in what is written -/

theorem mem_escape {text : List Char} {character : Char} (written : character ∈ escape text) :
    character ∈ text ∨ character = '\\' := by
  obtain ⟨original, member, kept⟩ := List.mem_flatMap.mp written
  split at kept
  · rcases List.mem_cons.mp kept with backslash | same
    · exact .inr backslash
    · exact .inl (List.mem_singleton.mp same ▸ member)
  · exact .inl (List.mem_singleton.mp kept ▸ member)

theorem value_of_field (record : GameRecord) : ∀ field ∈ record.fields,
    field.2 = record.black ∨ field.2 = record.white ∨
      ∀ character ∈ field.2.toList, isPlain character = true := by
  intro field member
  rcases List.mem_append.mp member with listed | handicap
  · simp only [List.mem_cons, List.not_mem_nil, or_false] at listed
    rcases listed with rfl | rfl | rfl | rfl | rfl | rfl
    · exact .inr (.inr (List.all_eq_true.mp rfl))
    · exact .inr (.inr (List.all_eq_true.mp rfl))
    · exact .inl rfl
    · exact .inr (.inl rfl)
    · exact .inr (.inr (by simpa using plain_result record.winner))
    · exact .inr (.inr (plain_shortest record.komi))
  · simp only [Option.mem_toList, Option.map_eq_some_iff] at handicap
    obtain ⟨stones, _, rfl⟩ := handicap
    exact .inr (.inr (by simpa using plain_digits stones.toNat))

theorem blanks_of_write {record : GameRecord} (black : Text.SingleLine record.black)
    (white : Text.SingleLine record.white) :
    ∀ character ∈ record.write.toList, Text.isBlank character = true → character = ' ' := by
  have idents : ∀ ident ∈ ["GM", "FF", "PB", "PW", "RE", "KM", "HA"],
      ident.toList.all isPlain = true := by decide
  intro character written blank
  simp only [write_eq, property, List.mem_append, List.mem_cons, List.not_mem_nil, or_false,
    List.mem_flatMap] at written
  rcases written with ((rfl | rfl) | ⟨field, member, inIdent | rfl | inValue | rfl⟩) | rfl
  · exact absurd blank (by decide)
  · exact absurd blank (by decide)
  · have plain := List.all_eq_true.mp (idents field.1 (ident_of_field record field member))
    simp [not_blank_of_plain (plain character inIdent)] at blank
  · exact absurd blank (by decide)
  · rcases mem_escape inValue with inText | rfl
    · rcases value_of_field record field member with name | name | plain
      · exact black.spaces character (name ▸ inText) blank
      · exact white.spaces character (name ▸ inText) blank
      · simp [not_blank_of_plain (plain character inText)] at blank
    · exact absurd blank (by decide)
  · exact absurd blank (by decide)
  · exact absurd blank (by decide)

/-- A blank other than a space is not among the written bytes. -/
theorem byte_not_written {record : GameRecord} (black : Text.SingleLine record.black)
    (white : Text.SingleLine record.white) {byte : UInt8} (ascii : byte.toNat ≤ 0x7F)
    (blank : Text.isBlank (Char.ofNat byte.toNat) = true)
    (notSpace : Char.ofNat byte.toNat ≠ ' ') : byte ∉ Utf8.encode record.write := by
  intro written
  obtain ⟨character, member, encoded⟩ := List.mem_flatMap.mp written
  have spaces := blanks_of_write black white character member
  rw [Utf8.eq_of_mem_encode_char encoded ascii] at spaces
  exact notSpace (spaces blank)

theorem line_breaks_of_write {record : GameRecord} (black : Text.SingleLine record.black)
    (white : Text.SingleLine record.white) :
    ∀ byte ∈ Utf8.encode record.write, byte ≠ lineFeed ∧ byte ≠ carriageReturn := by
  intro byte written
  constructor
  · rintro rfl
    exact byte_not_written black white (by decide) (by decide) (by decide) written
  · rintro rfl
    exact byte_not_written black white (by decide) (by decide) (by decide) written

end KifuRatings.GameRecord
