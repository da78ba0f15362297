import KifuRatings.Proofs.GameRecord.ReadBack
import KifuRatings.Proofs.Intake.Lines

/-!
# Written records as a file of lines

Records that are written one below the other make a file of lines if none of their names has a line
feed. The writer escapes brackets and backslashes but writes a line feed as it is, so such a name
spreads its record over several lines; the first of them ends inside a value and is malformed.
-/

namespace KifuRatings

theorem Utf8.feed_mem_encode {text : List Char} :
    0x0A ∈ text.flatMap Utf8.encodeChar ↔ '\n' ∈ text := by
  rw [List.mem_flatMap]
  constructor
  · intro encoded
    obtain ⟨character, member, inCharacter⟩ := encoded
    rw [Utf8.eq_of_mem_encode_char inCharacter (by decide)] at member
    exact member
  · intro member
    exact ⟨'\n', member, by decide⟩

namespace GameRecord

open Property

/-- No line feed in a name. -/
def OneLine (record : GameRecord) : Prop :=
  '\n' ∉ record.black.toList ∧ '\n' ∉ record.white.toList

instance (record : GameRecord) : Decidable record.OneLine :=
  inferInstanceAs (Decidable (_ ∧ _))

/-- What stands between the opening of a written record and its end. -/
def body (fields : List (String × String)) : List Char :=
  fields.flatMap fun field => property field.1 (escape field.2.toList)

theorem no_feed_in_ident (record : GameRecord) :
    ∀ field ∈ record.fields, '\n' ∉ field.1.toList := by
  have idents : ∀ ident ∈ ["GM", "FF", "PB", "PW", "RE", "KM", "HA"],
      '\n' ∉ ident.toList := by decide
  exact fun field member => idents field.1 (ident_of_field record field member)

theorem no_feed_in_escape {text : List Char} (oneLine : '\n' ∉ text) : '\n' ∉ escape text := by
  intro written
  rcases mem_escape written with member | backslash
  · exact oneLine member
  · exact absurd backslash (by decide)

theorem no_feed_in_body {fields : List (String × String)}
    (idents : ∀ field ∈ fields, '\n' ∉ field.1.toList)
    (values : ∀ field ∈ fields, '\n' ∉ field.2.toList) : '\n' ∉ body fields := by
  intro written
  obtain ⟨field, member, inField⟩ := List.mem_flatMap.mp written
  simp only [property, List.mem_append, List.mem_cons, List.not_mem_nil, or_false] at inField
  rcases inField with inIdent | bracket | inValue | bracket
  · exact idents field member inIdent
  · exact absurd bracket (by decide)
  · exact no_feed_in_escape (values field member) inValue
  · exact absurd bracket (by decide)

theorem value_without_feed {record : GameRecord} (oneLine : record.OneLine) :
    ∀ field ∈ record.fields, '\n' ∉ field.2.toList := by
  intro field member
  rcases value_of_field record field member with black | white | plain
  · exact black ▸ oneLine.1
  · exact white ▸ oneLine.2
  · intro feed
    exact absurd (plain '\n' feed) (by decide)

theorem no_feed_in_written {record : GameRecord} (oneLine : record.OneLine) :
    0x0A ∉ Utf8.encode record.write := by
  rw [Utf8.encode, Utf8.feed_mem_encode, write_eq]
  have inside : '\n' ∉ body record.fields :=
    no_feed_in_body (no_feed_in_ident record) (value_without_feed oneLine)
  simp only [List.mem_append, not_or]
  exact ⟨⟨by decide, inside⟩, by decide⟩

theorem first_feed {record : GameRecord} (broken : ¬record.OneLine) :
    ∃ earlier field later before after, record.fields = earlier ++ field :: later ∧
      field.2.toList = before ++ '\n' :: after ∧ '\n' ∉ before ∧
      ∀ other ∈ earlier, '\n' ∉ other.2.toList := by
  obtain ⟨field, found⟩ : ∃ field,
      record.fields.find? (fun field => '\n' ∈ field.2.toList) = some field := by
    rw [← Option.isSome_iff_exists, List.find?_isSome]
    rw [OneLine, not_and_or, not_not, not_not] at broken
    rcases broken with black | white
    · exact ⟨("PB", record.black), by simp [fields], by simpa using black⟩
    · exact ⟨("PW", record.white), by simp [fields], by simpa using white⟩
  obtain ⟨inField, earlier, later, split, others⟩ := List.find?_eq_some_iff_append.mp found
  obtain ⟨before, after, value, oneLine⟩ :=
    List.eq_append_cons_of_mem (of_decide_eq_true inField)
  refine ⟨earlier, field, later, before, after, split, value, oneLine, ?_⟩
  intro other member
  simpa using others other member

/-- Up to the first line feed a written record is a line that ends inside a value. -/
theorem first_line_is_malformed {record : GameRecord} (broken : ¬record.OneLine) :
    ∃ line rest ident, Utf8.encode record.write = line ++ 0x0A :: rest ∧ 0x0A ∉ line ∧
      line.head? = some openParenthesis ∧ read line = .error (.unterminatedValue ident) := by
  obtain ⟨earlier, field, later, before, after, split, value, oneLine, others⟩ := first_feed broken
  have member : field ∈ record.fields := by simp [split]
  have earlierMember : ∀ other ∈ earlier, other ∈ record.fields := by
    intro other isEarlier
    simp [split, isEarlier]
  let line : List Char :=
    ['(', ';'] ++ body earlier ++ field.1.toList ++ '[' :: escape before
  let rest : List Char := escape after ++ ']' :: (body later ++ [')'])
  have written : record.write.toList = line ++ '\n' :: rest := by
    have escaped : escape field.2.toList = escape before ++ '\n' :: escape after := by
      rw [value, escape, List.flatMap_append, List.flatMap_cons]
      rfl
    rw [write_eq, split, List.flatMap_append, List.flatMap_cons, property, escaped]
    simp [line, rest, body]
  have noFeed : '\n' ∉ line := by
    have inEarlier : '\n' ∉ body earlier := no_feed_in_body
      (fun other isEarlier => no_feed_in_ident record other (earlierMember other isEarlier)) others
    have inIdent := no_feed_in_ident record field member
    have inValue := no_feed_in_escape oneLine
    simp [line, inEarlier, inIdent, inValue]
  refine ⟨line.flatMap Utf8.encodeChar, rest.flatMap Utf8.encodeChar,
    ofCapitals (Utf8.encode field.1), ?_, ?_, rfl, ?_⟩
  · rw [Utf8.encode, written, List.flatMap_append, List.flatMap_cons]
    rfl
  · rwa [Utf8.feed_mem_encode]
  · have noBlanks : Blank [] := by simp [Blank]
    have idents := idents_of_fields record
    have mistake := Mistake.inNode (.mk noBlanks noBlanks noBlanks)
      (properties_written fun other isEarlier => idents other (earlierMember other isEarlier))
      (.unterminatedValue (idents field member).1 noBlanks .nil
        ⟨_, _, written_escape before, .inl rfl⟩) (by
          intro _
          obtain ⟨notEmpty, capitals⟩ := (idents field member).1
          obtain ⟨first, more, same⟩ := List.exists_cons_of_ne_nil notEmpty
          have capital := capital_is_plain (capitals first (by simp [same]))
          simpa [same] using capital.2.2)
    have text : line.flatMap Utf8.encodeChar = [openParenthesis, semicolon] ++
        ((earlier.flatMap fun field => property field.1 (escape field.2.toList)).flatMap
          Utf8.encodeChar ++ (Utf8.encode field.1 ++ ([] ++ ([] ++ openBracket ::
            (escape before).flatMap Utf8.encodeChar)))) := by
      simp only [line, List.flatMap_append, List.flatMap_cons, List.append_assoc]
      rfl
    rw [text, read_stages]
    exact congrArg (Except.bind · ofProperties) (read_root_mistake mistake)

theorem no_feed_in_written_iff (record : GameRecord) :
    0x0A ∉ Utf8.encode record.write ↔ record.OneLine := by
  constructor
  · intro noFeed
    by_contra broken
    obtain ⟨line, rest, _, written, _⟩ := first_line_is_malformed broken
    exact noFeed (by simp [written])
  · exact no_feed_in_written

def asLines (records : List GameRecord) : Bytes :=
  [0x0A].intercalate (records.map fun record => Utf8.encode record.write)

def game (record : GameRecord) : Outcome := Outcome.ofRecord record.onSingleLines

end GameRecord

namespace Scorebook

open GameRecord

theorem game_record_read (raw : Bytes) :
    OutcomeReader.gameRecord.read raw = (GameRecord.read raw).map Outcome.ofRecord := by
  change Outcome.read raw = _
  unfold Outcome.read
  cases GameRecord.read raw <;> rfl

theorem opened_line_not_blank {line : Bytes} (opened : line.head? = some Property.openParenthesis) :
    isBlankLine line = false := by
  cases line with
  | nil => cases opened
  | cons first rest =>
      obtain rfl : first = Property.openParenthesis := Option.some.inj opened
      rfl

theorem games_in_lines (records : List GameRecord) :
    gamesIn .gameRecord .lines (asLines records) =
      records.flatMap fun record => gamesIn .gameRecord .lines (Utf8.encode record.write) := by
  simp only [gamesIn, asLines, records_in_joined, List.flatMap_map, List.flatMap_assoc]

theorem count_in_lines (records : List GameRecord) :
    countIn .gameRecord .lines (asLines records) =
      (records.map fun record => countIn .gameRecord .lines (Utf8.encode record.write)).sum := by
  induction records with
  | nil => rfl
  | cons record records induction =>
      rw [List.map_cons, List.sum_cons, ← induction]
      simp only [countIn, asLines, records_in_joined, List.map_cons, List.flatMap_cons,
        List.map_append, List.sum_append]

theorem one_line_is_one_game {record : GameRecord} (oneLine : record.OneLine)
    (finite : record.komi.isFinite = true) :
    gamesIn .gameRecord .lines (Utf8.encode record.write) = [record.game] ∧
      countIn .gameRecord .lines (Utf8.encode record.write) = ⟨0, 1, 0, 0⟩ := by
  have opened : (Utf8.encode record.write).head? = some Property.openParenthesis := by
    rw [Utf8.encode, write_eq]
    rfl
  have alone : recordsIn .lines (Utf8.encode record.write) = [Utf8.encode record.write] := by
    rw [records_in_line (no_feed_in_written oneLine), opened_line_not_blank opened]
    rfl
  have read : OutcomeReader.gameRecord.read (Utf8.encode record.write) = .ok record.game := by
    rw [game_record_read, read_write, if_pos finite]
    rfl
  rw [gamesIn, countIn, alone]
  simp [gameOf, countOf, read, Except.toOption]

theorem broken_record_is_malformed {record : GameRecord} (broken : ¬record.OneLine) :
    1 ≤ (countIn .gameRecord .lines (Utf8.encode record.write)).malformed := by
  obtain ⟨line, rest, ident, written, oneLine, opened, refused⟩ := first_line_is_malformed broken
  have first : recordsIn .lines line = [line] := by
    rw [records_in_line oneLine, opened_line_not_blank opened]
    rfl
  have one : countOf .gameRecord line = ⟨0, 0, 1, 0⟩ := by
    rw [countOf, game_record_read, refused]
    rfl
  rw [countIn, written, records_in_append, first, List.map_append, List.sum_append,
    List.map_singleton, List.sum_singleton, one]
  exact Nat.le_add_right 1 _

section Records

variable {path : Path} {book : Scorebook} {records : List GameRecord}

theorem one_line_records_count (oneLines : ∀ record ∈ records, record.OneLine)
    (finite : ∀ record ∈ records, record.komi.isFinite = true) :
    (afterLines .gameRecord path book (asLines records)).book =
        book.scoreAll (records.map game) ∧
      (afterLines .gameRecord path book (asLines records)).count = ⟨0, records.length, 0, 0⟩ := by
  have games : gamesIn .gameRecord .lines (asLines records) = records.map game := by
    rw [games_in_lines, List.map_eq_flatMap]
    apply List.flatMap_congr
    intro record member
    exact (one_line_is_one_game (oneLines record member) (finite record member)).1
  have count : countIn .gameRecord .lines (asLines records) = ⟨0, records.length, 0, 0⟩ := by
    have counts : (records.map fun record =>
        countIn .gameRecord .lines (Utf8.encode record.write)) =
          List.replicate records.length ⟨0, 1, 0, 0⟩ := by
      rw [List.map_eq_replicate_iff]
      intro record member
      exact (one_line_is_one_game (oneLines record member) (finite record member)).2
    rw [count_in_lines, counts]
    induction records.length with
    | zero => rfl
    | succ length induction =>
        rw [List.replicate_succ, List.sum_cons, induction, IntakeCount.add_fields]
        simp [Nat.add_comm]
  rw [(after_lines_adds (asLines records)).1, (after_lines_adds (asLines records)).2, games, count]
  exact ⟨rfl, rfl⟩

theorem broken_records_le_malformed :
    (records.countP fun record => ¬record.OneLine) ≤
      (afterLines .gameRecord path book (asLines records)).count.malformed := by
  rw [(after_lines_adds (asLines records)).2, count_in_lines]
  induction records with
  | nil => exact Nat.le_refl 0
  | cons record records induction =>
      rw [List.map_cons, List.sum_cons, IntakeCount.add_fields, List.countP_cons]
      by_cases oneLine : record.OneLine
      · simp only [oneLine, not_true_eq_false, decide_false, Bool.false_eq_true, if_false]
        omega
      · have malformed := broken_record_is_malformed oneLine
        simp only [oneLine, not_false_eq_true, decide_true, if_true]
        omega

/-- Records that are written one below the other are read as the games that they record, with
nothing malformed, exactly if no name has a line feed; each record with such a name leaves a
malformed line. Without line feeds the table grows by the results of these games, and each record
stands on a line of its own. -/
theorem written_records_make_lines (path : Path) (book : Scorebook) (records : List GameRecord)
    (finite : ∀ record ∈ records, record.komi.isFinite = true) :
    (∀ record : GameRecord, 0x0A ∉ Utf8.encode record.write ↔ record.OneLine) ∧
    ((afterLines .gameRecord path book (asLines records)).count = ⟨0, records.length, 0, 0⟩ ↔
      ∀ record ∈ records, record.OneLine) ∧
    ((records.countP fun record => ¬record.OneLine) ≤
      (afterLines .gameRecord path book (asLines records)).count.malformed) ∧
    ((∀ record ∈ records, record.OneLine) →
      (afterLines .gameRecord path book (asLines records)).book =
          book.scoreAll (records.map game) ∧
        ∀ first second,
          (afterLines .gameRecord path book (asLines records)).book.table.tally first second =
            (book.table.tally first second).add
              (Pairing.results ⟨first, second⟩ (records.map game))) := by
  refine ⟨no_feed_in_written_iff, ⟨?_, ?_⟩, broken_records_le_malformed, ?_⟩
  · intro counted
    have noneBroken := @broken_records_le_malformed path book records
    rw [counted, Nat.le_zero, List.countP_eq_zero] at noneBroken
    intro record member
    simpa using noneBroken record member
  · intro oneLines
    exact (one_line_records_count oneLines finite).2
  · intro oneLines
    have scored := (@one_line_records_count path book records oneLines finite).1
    refine ⟨scored, ?_⟩
    intro first second
    have merged : (book.scoreAll (records.map game)).table =
        book.table.merge (Crosstable.ofGames (records.map game)) := rfl
    rw [scored, merged, Crosstable.tally_merge, (Crosstable.histogram_of_games _).tally]

end Records

/-- A bracket, a backslash and a carriage return in names are no matter. -/
theorem awkward_names_make_lines :
    (∀ record ∈ [(⟨"a]\r", "b\\", some .black, none, 6.5⟩ : GameRecord),
        ⟨"", "(;", none, some 2, 0.5⟩], record.komi.isFinite = true) ∧
      (afterLines .gameRecord [] (empty .standard) (asLines
        [⟨"a]\r", "b\\", some .black, none, 6.5⟩, ⟨"", "(;", none, some 2, 0.5⟩])).count =
          ⟨0, 2, 0, 0⟩ := by
  have finite : ∀ record ∈ [(⟨"a]\r", "b\\", some .black, none, 6.5⟩ : GameRecord),
      ⟨"", "(;", none, some 2, 0.5⟩], record.komi.isFinite = true := by decide +kernel
  obtain ⟨_, counted, _⟩ := written_records_make_lines [] (empty .standard) _ finite
  exact ⟨finite, counted.mpr (by decide)⟩

/-- A name with a line feed makes two malformed lines of one record. -/
theorem broken_name_makes_no_game :
    ((⟨"a\nb", "c", none, none, 6.5⟩ : GameRecord).komi.isFinite = true) ∧
      0x0A ∈ Utf8.encode (GameRecord.write ⟨"a\nb", "c", none, none, 6.5⟩) ∧
      (afterLines .gameRecord [] (empty .standard)
        (asLines [⟨"a\nb", "c", none, none, 6.5⟩])).count = ⟨0, 0, 2, 0⟩ := by
  refine ⟨by decide +kernel, by decide +kernel, by decide +kernel⟩

end Scorebook

end KifuRatings
