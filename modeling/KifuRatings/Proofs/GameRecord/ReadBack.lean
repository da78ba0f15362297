import KifuRatings.Proofs.GameRecord.WrittenForm

/-!
# Reading undoes writing

A written record is read as the same record with its names on a single line, so writing what was
read is a canonical form of it.
-/

namespace KifuRatings.GameRecord

open Property

/-! ## The record read back -/

theorem text_of_fields (fields : List (String × String)) (ident : String) :
    text? (fields.map toProperty) ident =
      (fields.find? (·.1 == ident)).map fun field => Text.singleLine field.2 := by
  rw [text?, lookup, List.find?_map, Option.map_map, Option.map_map]
  apply congrArg (Option.map · _)
  funext field
  simp only [Function.comp_apply, toProperty, Utf8.decode_lossy_encode]

theorem winner_of_result (winner : Option Color) :
    winnerOf (String.ofList (result winner)) = winner := by
  cases winner with
  | none => rfl
  | some color => cases color <;> rfl

theorem komi_of_shortest (komi : Float) :
    komiOf (Decimal.shortest komi) =
      if komi.isFinite then .ok komi else .error (.invalidKomi (Decimal.shortest komi)) := by
  have given : ∀ text number, Decimal.readFloat? text = some number → text.isEmpty = false := by
    intro text number read
    by_contra empty
    rw [Bool.not_eq_false, String.isEmpty_iff] at empty
    subst empty
    cases read
  cases finite : komi.isFinite with
  | true =>
      have read := Decimal.read_shortest finite
      simp [komiOf, given _ _ read, read, finite]
  | false =>
      obtain ⟨number, read, notFinite⟩ := Decimal.read_special finite
      simp [komiOf, given _ _ read, read, notFinite]

theorem handicap_of_digits (stones : UInt32) :
    handicapOf (String.ofList (Nat.toDigits 10 stones.toNat)) = .ok (some stones) := by
  simp [handicapOf, Decimal.read_count_digits]

def onSingleLines (record : GameRecord) : GameRecord :=
  { record with black := Text.singleLine record.black, white := Text.singleLine record.white }

theorem handicap_of_fields (record : GameRecord) :
    handicapOf ((text? (record.fields.map toProperty) "HA").getD "") = .ok record.handicap := by
  rw [text_of_fields]
  cases handicap : record.handicap with
  | none => simp [fields, handicap, handicapOf]
  | some stones =>
      have digits : Text.singleLine (String.ofList (Nat.toDigits 10 stones.toNat)) =
          String.ofList (Nat.toDigits 10 stones.toNat) :=
        single_line_plain (by simpa using plain_digits stones.toNat)
      simp [fields, handicap, digits, handicap_of_digits]

theorem of_fields (record : GameRecord) :
    ofProperties (record.fields.map toProperty) =
      if record.komi.isFinite then .ok record.onSingleLines
      else .error (.invalidKomi (Decimal.shortest record.komi)) := by
  have black : requiredText (record.fields.map toProperty) "PB" =
      .ok (Text.singleLine record.black) := by
    rw [requiredText, text_of_fields]
    simp [fields]
  have white : requiredText (record.fields.map toProperty) "PW" =
      .ok (Text.singleLine record.white) := by
    rw [requiredText, text_of_fields]
    simp [fields]
  have winner : (text? (record.fields.map toProperty) "RE").bind winnerOf = record.winner := by
    have result : Text.singleLine (String.ofList (result record.winner)) =
        String.ofList (result record.winner) :=
      single_line_plain (by simpa using plain_result record.winner)
    rw [text_of_fields]
    simp [fields, result, winner_of_result]
  have komi : (text? (record.fields.map toProperty) "KM").getD "" =
      Decimal.shortest record.komi := by
    rw [text_of_fields]
    simp [fields, single_line_plain (plain_shortest record.komi)]
  rw [of_properties_steps, black, white, winner, komi, handicap_of_fields, komi_of_shortest]
  split <;> rfl

theorem read_stages (raw : Bytes) : read raw = (readRoot raw).bind ofProperties := rfl

/-- A written record is read with its names on a single line, unless its komi is not finite. -/
theorem read_write (record : GameRecord) :
    read (Utf8.encode record.write) =
      if record.komi.isFinite then .ok record.onSingleLines
      else .error (.invalidKomi (Decimal.shortest record.komi)) := by
  rw [read_stages, read_root_node (root_node_written record), ← of_fields, Except.bind]

theorem read_write_eq_ok (record : GameRecord) :
    read (Utf8.encode record.write) = .ok record ↔ record.komi.isFinite = true ∧
      Text.SingleLine record.black ∧ Text.SingleLine record.white := by
  rw [read_write, ← Text.single_line_eq_self, ← Text.single_line_eq_self]
  obtain ⟨black, white, winner, handicap, komi⟩ := record
  cases finite : komi.isFinite with
  | true => simp [onSingleLines]
  | false => simp

theorem read_write_agrees (record : GameRecord) :
    (∃ again, read (Utf8.encode record.write) = .ok again ∧ again.agrees record = true) ↔
      record.komi.isFinite = true ∧ Text.SingleLine record.black ∧
        Text.SingleLine record.white := by
  rw [read_write, ← Text.single_line_eq_self, ← Text.single_line_eq_self]
  cases finite : record.komi.isFinite with
  | true => simp [onSingleLines, agrees, Decimal.beq_self finite]
  | false => simp

/-! ## What is read -/

theorem finite_komi {text : String} {komi : Float} (read : komiOf text = .ok komi) :
    komi.isFinite = true := by
  unfold komiOf at read
  split at read
  · cases read
    rfl
  split at read
  · split at read
    · cases read
      assumption
    · cases read
  · cases read

theorem single_line_text {properties : List Property} {ident text : String}
    (given : requiredText properties ident = .ok text) : Text.SingleLine text := by
  unfold requiredText text? at given
  cases found : lookup ident properties with
  | none => simp [found] at given
  | some value =>
      simp only [found, Option.map_some, Except.ok.injEq] at given
      exact given ▸ Text.single_line_single_line _

theorem read_is_canonical {raw : Bytes} {record : GameRecord} (readable : read raw = .ok record) :
    record.komi.isFinite = true ∧ Text.SingleLine record.black ∧ Text.SingleLine record.white := by
  rw [read_stages] at readable
  cases root : readRoot raw with
  | error cause => simp [root, Except.bind] at readable
  | ok properties =>
      rw [root, Except.bind, of_properties_steps] at readable
      cases black : requiredText properties "PB" with
      | error cause => simp [black, Except.bind] at readable
      | ok blackName =>
      cases white : requiredText properties "PW" with
      | error cause => simp [black, white, Except.bind] at readable
      | ok whiteName =>
      cases komi : komiOf ((text? properties "KM").getD "") with
      | error cause => simp [black, white, komi, Except.bind] at readable
      | ok points =>
      cases handicap : handicapOf ((text? properties "HA").getD "") with
      | error cause => simp [black, white, komi, handicap, Except.bind] at readable
      | ok stones =>
          simp only [black, white, komi, handicap, Except.bind, Except.ok.injEq] at readable
          subst readable
          exact ⟨finite_komi komi, single_line_text black, single_line_text white⟩

/-- A written record is read property by property, as long as its komi is a number. Only blanks in
its names are lost. -/
theorem reading_undoes_writing (record : GameRecord) :
    readRoot (Utf8.encode record.write) = .ok (record.fields.map toProperty) ∧
    read (Utf8.encode record.write) =
      (if record.komi.isFinite then
        .ok { record with
          black := Text.singleLine record.black, white := Text.singleLine record.white }
      else .error (.invalidKomi (Decimal.shortest record.komi))) ∧
    (read (Utf8.encode record.write) = .ok record ↔ record.komi.isFinite = true ∧
      Text.SingleLine record.black ∧ Text.SingleLine record.white) ∧
    ((∃ again, read (Utf8.encode record.write) = .ok again ∧ again.agrees record = true) ↔
      record.komi.isFinite = true ∧ Text.SingleLine record.black ∧
        Text.SingleLine record.white) :=
  ⟨read_root_node (root_node_written record), read_write record, read_write_eq_ok record,
    read_write_agrees record⟩

/-- Whatever text a record was read from, what is written of it is on a single line, is read as
the same record and is written the same way again. -/
theorem writing_is_canonical {raw : Bytes} {record : GameRecord}
    (readable : read raw = .ok record) :
    Text.SingleLine record.black ∧ Text.SingleLine record.white ∧ record.komi.isFinite = true ∧
    (∀ byte ∈ Utf8.encode record.write, byte ≠ lineFeed ∧ byte ≠ carriageReturn) ∧
    (∀ character ∈ record.write.toList, Text.isBlank character = true → character = ' ') ∧
    read (Utf8.encode record.write) = .ok record ∧
    ∀ again, read (Utf8.encode record.write) = .ok again →
      Utf8.encode again.write = Utf8.encode record.write := by
  obtain ⟨finite, black, white⟩ := read_is_canonical readable
  have same := (read_write_eq_ok record).mpr ⟨finite, black, white⟩
  refine ⟨black, white, finite, line_breaks_of_write black white, blanks_of_write black white,
    same, ?_⟩
  intro again reread
  rw [same] at reread
  rw [Except.ok.inj reread]

theorem broken_name_is_canonical :
    read (Utf8.encode (write ⟨"Ann\n[9p]", " B\\", some .white, some 2, 6.5⟩)) =
        .ok ⟨"Ann [9p]", "B\\", some .white, some 2, 6.5⟩ ∧
      read (Utf8.encode (write ⟨"Ann [9p]", "B\\", some .white, some 2, 6.5⟩)) =
        .ok ⟨"Ann [9p]", "B\\", some .white, some 2, 6.5⟩ := by
  have finite : (6.5 : Float).isFinite = true := by decide +kernel
  have black : Text.singleLine "Ann\n[9p]" = "Ann [9p]" := by decide
  have white : Text.singleLine " B\\" = "B\\" := by decide
  have readable : read (Utf8.encode (write ⟨"Ann\n[9p]", " B\\", some .white, some 2, 6.5⟩)) =
      .ok ⟨"Ann [9p]", "B\\", some .white, some 2, 6.5⟩ := by
    rw [read_write, if_pos finite, onSingleLines, black, white]
  obtain ⟨_, _, _, _, _, same, _⟩ := writing_is_canonical readable
  exact ⟨readable, same⟩

end KifuRatings.GameRecord
