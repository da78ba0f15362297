import KifuRatings.Proofs.GameRecord.ReadBack
import KifuRatings.Proofs.Intake.PaddedLines
import KifuRatings.Proofs.Text.LineEndings

/-!
# Line endings within a record

Between two tokens and behind a backslash it makes no difference whether a line ends with a line
feed alone or with a carriage return in front of it. Within a value it does: each of the two
characters becomes a space of its own. So the same properties are read, only with the carriage
returns in their values, and a record is told by a text with one more space for every line break
that is left in it after trimming.
-/

namespace KifuRatings.Property

open Scorebook (withReturns with_returns_append)

/-! ## Properties -/

@[simp]
theorem with_returns_feed (rest : Bytes) :
    withReturns (lineFeed :: rest) = carriageReturn :: lineFeed :: withReturns rest := rfl

theorem with_returns_other {byte : UInt8} (notFeed : byte ≠ lineFeed) (rest : Bytes) :
    withReturns (byte :: rest) = byte :: withReturns rest := by
  rw [withReturns, List.flatMap_cons, if_neg notFeed]
  rfl

theorem skip_blank_with_returns (text : Bytes) :
    skipBlank (withReturns text) = withReturns (skipBlank text) := by
  refine Text.drop_while_flat_map (fun byte => ?_) text
  split
  · rename_i feed
    rw [feed, List.forall_mem_cons, List.forall_mem_singleton]
    exact ⟨List.cons_ne_nil _ _, rfl, rfl⟩
  · simp

theorem start_with_returns {text inside : Bytes} {byte : UInt8}
    (started : skipBlank text = byte :: inside) :
    skipBlank (withReturns text) = byte :: withReturns inside := by
  have notBlank := not_blank_behind_blanks text byte (by simp [started])
  have notFeed : byte ≠ lineFeed := by
    rintro rfl
    cases notBlank
  rw [skip_blank_with_returns, started, with_returns_other notFeed]

theorem letters_with_returns (text : Bytes) :
    (withReturns text).takeWhile isCapital = text.takeWhile isCapital ∧
      (withReturns text).dropWhile isCapital = withReturns (text.dropWhile isCapital) := by
  induction text with
  | nil => exact ⟨rfl, rfl⟩
  | cons byte rest induction =>
      by_cases feed : byte = lineFeed
      · subst feed
        exact ⟨rfl, rfl⟩
      · rw [with_returns_other feed]
        cases capital : isCapital byte <;>
          simp [capital, induction.1, induction.2, with_returns_other feed]

def pairWithReturns (pair : Bytes × Bytes) : Bytes × Bytes :=
  (withReturns pair.1, withReturns pair.2)

theorem keep_with_returns {byte : UInt8} (notFeed : byte ≠ lineFeed) (read : Option (Bytes × Bytes)) :
    keep byte (read.map pairWithReturns) = (keep byte read).map pairWithReturns := by
  cases read with
  | none => rfl
  | some pair => simp [keep, pairWithReturns, with_returns_other notFeed]

theorem keep_feed_with_returns (read : Option (Bytes × Bytes)) :
    keep carriageReturn (keep lineFeed (read.map pairWithReturns)) =
      (keep lineFeed read).map pairWithReturns := by
  cases read <;> rfl

theorem no_return_in_pair {byte partner : UInt8} (paired : breakPartner byte = some partner)
    (notReturn : byte ≠ carriageReturn) : byte = lineFeed ∧ partner = carriageReturn := by
  rcases break_partner_is_break paired with feed | ⟨isReturn, _⟩
  · exact feed
  · exact absurd isReturn notReturn

/-- A line break behind a backslash is gone in either form, any other is kept in its form. -/
theorem read_value_with_returns {bytes : Bytes} (noReturn : carriageReturn ∉ bytes) :
    readValue (withReturns bytes) = (readValue bytes).map pairWithReturns := by
  fun_induction readValue bytes with
  | case1 => rfl
  | case2 rest =>
      rw [with_returns_other (by decide)]
      exact read_value_written .nil (withReturns rest)
  | case3 => rfl
  | case4 escaped rest unpaired _ induction =>
      obtain ⟨notFeed, notReturn⟩ := break_partner_eq_none.mp unpaired
      have noReturnBehind : carriageReturn ∉ rest := by simp_all
      rw [with_returns_other (by decide), with_returns_other notFeed,
        read_value_escaped notFeed notReturn, induction noReturnBehind, keep_with_returns notFeed]
  | case5 byte partner paired =>
      have notReturn : byte ≠ carriageReturn := by
        rintro rfl
        exact noReturn (by simp)
      obtain ⟨rfl, rfl⟩ := no_return_in_pair paired notReturn
      rfl
  | case6 byte partner rest _ paired induction =>
      have notReturn : byte ≠ carriageReturn := by
        rintro rfl
        exact noReturn (by simp)
      obtain ⟨rfl, rfl⟩ := no_return_in_pair paired notReturn
      exact absurd (by simp) noReturn
  | case7 byte partner paired next rest different _ induction =>
      have notReturn : byte ≠ carriageReturn := by
        rintro rfl
        exact noReturn (by simp)
      obtain ⟨rfl, rfl⟩ := no_return_in_pair paired notReturn
      have noReturnBehind : carriageReturn ∉ next :: rest := by simp_all
      rw [with_returns_other (by decide), with_returns_feed, read_value_pair rfl,
        induction noReturnBehind]
  | case8 byte rest unclosed unescaped induction =>
      have noReturnBehind : carriageReturn ∉ rest := by simp_all
      by_cases feed : byte = lineFeed
      · subst feed
        rw [with_returns_feed, read_value_plain (by decide) (by decide),
          read_value_plain (by decide) (by decide), induction noReturnBehind, keep_feed_with_returns]
      · rw [with_returns_other feed, read_value_plain unclosed unescaped, induction noReturnBehind,
          keep_with_returns feed]

theorem value_suffix {bytes value rest : Bytes} (read : readValue bytes = some (value, rest)) :
    rest <:+ bytes := by
  rcases every_text_splits bytes with ⟨text, other, after, written, rfl⟩ | unfinished
  · rw [read_value_written written] at read
    cases read
    exact ⟨text ++ [closeBracket], by simp⟩
  · rw [read_value_unfinished unfinished] at read
    cases read

theorem suffix_of_started {text inside : Bytes} {byte : UInt8}
    (started : skipBlank text = byte :: inside) : inside <:+ text :=
  (List.suffix_cons byte inside).trans (started ▸ List.dropWhile_suffix isBlankByte)

theorem read_values_with_returns (ident : String) {bytes : Bytes} (noReturn : carriageReturn ∉ bytes) :
    readValues ident (withReturns bytes) = (readValues ident bytes).map fun (values, rest) =>
      (values.map withReturns, withReturns rest) := by
  rw [read_values_step ident bytes, read_values_step ident (withReturns bytes)]
  cases started : skipBlank bytes with
  | nil =>
      rw [skip_blank_with_returns, started]
      rfl
  | cons byte inside =>
      have isInside : inside <:+ bytes := suffix_of_started started
      rw [start_with_returns started]
      dsimp only
      split
      · rw [read_value_with_returns fun member => noReturn (isInside.mem member)]
        cases closed : readValue inside with
        | none => rfl
        | some result =>
            obtain ⟨value, rest⟩ := result
            have isRest : rest <:+ bytes := (value_suffix closed).trans isInside
            have shorter : rest.length < bytes.length :=
              (length_of_read_value closed).trans_le isInside.length_le
            change (readValues ident (withReturns rest)).map _ =
              ((readValues ident rest).map _).map _
            rw [read_values_with_returns ident fun member => noReturn (isRest.mem member)]
            cases readValues ident rest <;> rfl
      · rw [← start_with_returns started, skip_blank_with_returns, started]
        rfl
termination_by bytes.length

theorem values_suffix {ident : String} {bytes rest : Bytes} {values : List Bytes}
    (read : readValues ident bytes = .ok (values, rest)) : rest <:+ bytes := by
  fun_induction readValues ident bytes generalizing values rest with
  | case1 =>
      cases read
      exact List.nil_suffix
  | case2 => cases read
  | case3 bytes inside value after closed opened induction =>
      obtain ⟨⟨others, behind⟩, step, same⟩ := map_eq_ok.mp read
      cases same
      exact (induction step).trans ((value_suffix closed).trans (suffix_of_started opened))
  | case4 bytes byte inside opened other =>
      cases read
      exact opened ▸ List.dropWhile_suffix isBlankByte

def withReturnsInside (property : Property) : Property :=
  { property with
    value := withReturns property.value
    further := property.further.map withReturns }

theorem read_all_with_returns {bytes : Bytes} (noReturn : carriageReturn ∉ bytes) :
    readAll (withReturns bytes) = (readAll bytes).map (List.map withReturnsInside) := by
  rw [read_all_step bytes, read_all_step (withReturns bytes)]
  cases started : skipBlank bytes with
  | nil =>
      rw [skip_blank_with_returns, started]
      rfl
  | cons byte rest =>
      have isBehind : rest.dropWhile isCapital <:+ bytes :=
        (List.dropWhile_suffix isCapital).trans (suffix_of_started started)
      rw [start_with_returns started]
      dsimp only
      rw [(letters_with_returns rest).1, (letters_with_returns rest).2,
        read_values_with_returns _ fun member => noReturn (isBehind.mem member)]
      split
      · rfl
      · split
        · cases read : readValues (ofCapitals (byte :: rest.takeWhile isCapital))
              (rest.dropWhile isCapital) with
          | error cause => rfl
          | ok result =>
              obtain ⟨values, behind⟩ := result
              cases values with
              | nil => rfl
              | cons value further =>
                  have isAfter : behind <:+ bytes := (values_suffix read).trans isBehind
                  have shorter : behind.length < bytes.length := by
                    have afterValues := (values_suffix read).length_le
                    have afterLetters := List.length_dropWhile_le isCapital rest
                    have afterBlank := List.length_dropWhile_le isBlankByte bytes
                    rw [← skipBlank, started, List.length_cons] at afterBlank
                    omega
                  change (readAll (withReturns behind)).map _ = ((readAll behind).map _).map _
                  rw [read_all_with_returns fun member => noReturn (isAfter.mem member)]
                  cases readAll behind <;> rfl
        · rfl
termination_by bytes.length

theorem read_root_with_returns {raw : Bytes} (noReturn : carriageReturn ∉ raw) :
    readRoot (withReturns raw) = (readRoot raw).map (List.map withReturnsInside) := by
  rw [readRoot, readRoot]
  cases started : skipBlank raw with
  | nil =>
      rw [skip_blank_with_returns, started]
      rfl
  | cons opening inside =>
      rw [start_with_returns started]
      dsimp only
      split
      · cases opened : skipBlank inside with
        | nil =>
            rw [skip_blank_with_returns, opened]
            rfl
        | cons start rest =>
            have isRest : rest <:+ raw :=
              (suffix_of_started opened).trans (suffix_of_started started)
            rw [start_with_returns opened]
            dsimp only
            split
            · rw [read_all_with_returns fun member => noReturn (isRest.mem member)]
            · rfl
      · rfl

theorem lookup_with_returns (ident : String) (properties : List Property) :
    lookup ident (properties.map withReturnsInside) = (lookup ident properties).map withReturns := by
  rw [lookup, lookup, List.find?_map, Option.map_map, Option.map_map]
  rfl

end KifuRatings.Property

namespace KifuRatings.Utf8

open Scorebook (withReturns)
open Property (lineFeed carriageReturn)

/-- An open sequence goes on with no byte below 0x80 and ends in no character below 0x80. -/
def Beyond : Option Pending → Prop
  | none => True
  | some pending => 0x80 ≤ pending.low ∧ 2 ≤ pending.scalar * 64 + (pending.low - 0x80) ∧
      (pending.further = 0 → 2 ≤ pending.scalar)

theorem beyond_none : Beyond none := trivial

theorem first_beyond (byte : UInt8) : Beyond (first byte).2 := by
  have isByte : byte.toNat < 256 := byte.toNat_lt
  unfold first
  generalize byte.toNat = value at isByte
  simp only
  repeat' split
  all_goals simp only [Beyond]
  all_goals omega

theorem feed_beyond {state : Option Pending} (beyond : Beyond state) (byte : UInt8) :
    Beyond (feed state byte).2 := by
  cases state with
  | none => exact first_beyond byte
  | some pending =>
      obtain ⟨further, low, high, scalar⟩ := pending
      obtain ⟨lowBeyond, started, last⟩ := beyond
      simp only at lowBeyond started last
      rw [feed]
      split
      · rename_i bounds
        dsimp only at bounds
        cases further with
        | zero => trivial
        | succ further =>
            simp only [Beyond]
            omega
      · exact first_beyond byte

def leftOpen : Option Pending → List (Option Char)
  | none => []
  | some _ => [none]

theorem feed_ascii {state : Option Pending} (beyond : Beyond state) {byte : UInt8}
    (ascii : byte.toNat ≤ 0x7F) :
    feed state byte = (leftOpen state ++ [some (Char.ofNat byte.toNat)], none) := by
  have alone : first byte = ([some (Char.ofNat byte.toNat)], none) := by simp [first, ascii]
  cases state with
  | none => exact alone
  | some pending =>
      have outside : ¬ (pending.low ≤ byte.toNat ∧ byte.toNat ≤ pending.high) := by
        have lowBeyond := beyond.1
        omega
      simp only [feed, if_neg outside, alone]
      rfl

theorem of_nat_ne_line_feed {number : ℕ} (other : number ≠ 10) : Char.ofNat number ≠ '\n' := by
  intro same
  have value := congrArg Char.toNat same
  rw [Char.toNat_ofNat] at value
  split at value
  · exact other value
  · cases value

theorem no_line_feed_of_feed {state : Option Pending} (beyond : Beyond state) {byte : UInt8}
    (notFeed : byte ≠ lineFeed) : some '\n' ∉ (feed state byte).1 := by
  have other : byte.toNat ≠ 10 := fun same => notFeed (UInt8.toNat_inj.mp same)
  have alone : some '\n' ∉ (first byte).1 := by
    unfold first
    grind [of_nat_ne_line_feed]
  cases state with
  | none => exact alone
  | some pending =>
      obtain ⟨further, low, high, scalar⟩ := pending
      obtain ⟨lowBeyond, started, last⟩ := beyond
      dsimp only at lowBeyond started last
      rw [feed]
      split
      · cases further with
        | zero =>
            have large : scalar * 64 + (byte.toNat - 0x80) ≠ 10 := by
              have enough := last rfl
              omega
            simpa using (of_nat_ne_line_feed large).symm
        | succ further => simp
      · simpa using alone

/-- A mark or character that was read, with a carriage return in front of a line feed. -/
def partWithReturn (part : Option Char) : List (Option Char) :=
  if part = some '\n' then [some '\r', some '\n'] else [part]

theorem flat_map_part_with_return {parts : List (Option Char)} (noFeed : some '\n' ∉ parts) :
    parts.flatMap partWithReturn = parts := by
  have unchanged : ∀ part ∈ parts, partWithReturn part = [part] :=
    fun part member => if_neg (ne_of_mem_of_not_mem member noFeed)
  rw [List.flatMap_congr unchanged, List.flatMap_singleton']

theorem decode_with_returns {state : Option Pending} (beyond : Beyond state) (bytes : Bytes) :
    decodeFrom state (withReturns bytes) = (decodeFrom state bytes).flatMap partWithReturn := by
  induction bytes generalizing state with
  | nil => cases state <;> rfl
  | cons byte rest induction =>
      by_cases feed : byte = lineFeed
      · subst feed
        have leftAlone : (leftOpen state).flatMap partWithReturn = leftOpen state := by
          cases state <;> rfl
        rw [Property.with_returns_feed, decode_from_cons, decode_from_cons state lineFeed,
          feed_ascii beyond (by decide), feed_ascii beyond (by decide), decode_from_cons,
          feed_ascii beyond_none (by decide), induction beyond_none, List.flatMap_append,
          List.flatMap_append, leftAlone, List.append_assoc, List.append_assoc,
          List.append_assoc]
        rfl
      · rw [Property.with_returns_other feed, decode_from_cons, decode_from_cons,
          induction (feed_beyond beyond byte), List.flatMap_append,
          flat_map_part_with_return (no_line_feed_of_feed beyond feed)]

theorem decode_lossy_with_returns (bytes : Bytes) :
    (decodeLossy (withReturns bytes)).toList = Text.withReturns (decodeLossy bytes).toList := by
  have sameCharacter : ∀ part : Option Char,
      (partWithReturn part).map (·.getD replacement) =
        if part.getD replacement = '\n' then ['\r', '\n'] else [part.getD replacement] := by
    intro part
    cases part with
    | none => rfl
    | some character => by_cases feed : character = '\n' <;> simp [partWithReturn, feed]
  rw [decodeLossy, decodeLossy, String.toList_ofList, String.toList_ofList,
    decode_with_returns beyond_none, List.map_flatMap, Text.withReturns, List.flatMap_map]
  exact List.flatMap_congr fun part _ => sameCharacter part

end KifuRatings.Utf8

namespace KifuRatings.GameRecord

open Scorebook (withReturns)
open Property

/-! ## Records -/

/-- What a record is told by: the first value of a property without the blanks around it, but with
the line breaks inside it. -/
def told? (properties : List Property) (ident : String) : Option (List Char) :=
  (lookup ident properties).map fun value => Text.trim (Utf8.decodeLossy value).toList

theorem text_eq_told (properties : List Property) (ident : String) :
    text? properties ident = (told? properties ident).map Text.level := by
  rw [text?, told?, Option.map_map]
  simp only [Function.comp_def, Text.single_line_eq_level]

theorem told_with_returns (properties : List Property) (ident : String) :
    told? (properties.map withReturnsInside) ident = (told? properties ident).map Text.withReturns := by
  rw [told?, told?, lookup_with_returns, Option.map_map, Option.map_map]
  simp only [Function.comp_def, Utf8.decode_lossy_with_returns, Text.trim_with_returns]

theorem told_start {properties : List Property} {ident : String} {text : List Char}
    (isTold : told? properties ident = some text) :
    ∀ character ∈ text.head?, Text.isBlank character = false := by
  obtain ⟨value, _, rfl⟩ := Option.map_eq_some_iff.mp isTold
  exact Text.trim_start

theorem winner_of_cons (character : Char) (rest : List Char) :
    winnerOf (String.ofList (character :: rest)) = winnerOf (String.ofList [character]) := by
  simp only [winnerOf, String.toList_ofList]
  split <;> simp_all

/-- A result starts with its first character, which is no line break. -/
theorem winner_with_returns {text : List Char}
    (start : ∀ character ∈ text.head?, Text.isBlank character = false) :
    winnerOf (Text.level (Text.withReturns text)) = winnerOf (Text.level text) := by
  cases text with
  | nil => rfl
  | cons character rest =>
      have notBlank : Text.isBlank character = false := start character rfl
      have notFeed : character ≠ '\n' := by
        rintro rfl
        cases notBlank
      have sameStart : Text.withReturns (character :: rest) = character :: Text.withReturns rest := by
        simp [Text.withReturns, notFeed]
      rw [sameStart]
      exact (winner_of_cons _ _).trans (winner_of_cons _ _).symm

theorem space_of_feed {text : List Char} (feed : '\n' ∈ text) : ' ' ∈ (Text.level text).toList := by
  rw [Text.level, String.toList_ofList]
  exact List.mem_map.mpr ⟨'\n', feed, rfl⟩

theorem feed_with_returns {text : List Char} (feed : '\n' ∈ text) : '\n' ∈ Text.withReturns text :=
  List.mem_flatMap.mpr ⟨'\n', feed, by simp⟩

theorem not_empty_of_space {text : String} (member : ' ' ∈ text.toList) : text.isEmpty = false := by
  rw [Bool.eq_false_iff]
  intro empty
  rw [String.isEmpty_iff.mp empty] at member
  cases member

theorem komi_own (text : String) :
    komiOf text = (komiOf text).mapError fun _ => .invalidKomi text := by
  unfold komiOf
  split
  · rfl
  split
  · split <;> rfl
  · rfl

theorem handicap_own (text : String) :
    handicapOf text = (handicapOf text).mapError fun _ => .invalidHandicap text := by
  unfold handicapOf
  split
  · rfl
  · split <;> rfl

/-- With a line break inside it a text is no komi, however that is written. -/
theorem komi_with_returns (text : List Char) :
    komiOf (Text.level (Text.withReturns text)) = (komiOf (Text.level text)).mapError fun _ =>
      .invalidKomi (Text.level (Text.withReturns text)) := by
  by_cases feed : '\n' ∈ text
  · have refused : ∀ text : List Char, '\n' ∈ text →
        komiOf (Text.level text) = .error (.invalidKomi (Text.level text)) := by
      intro text feed
      have space := space_of_feed feed
      simp [komiOf, not_empty_of_space space, Decimal.float_with_space space]
    rw [refused text feed, refused _ (feed_with_returns feed)]
    rfl
  · rw [Text.with_returns_of_line feed, ← komi_own]

theorem handicap_with_returns (text : List Char) :
    handicapOf (Text.level (Text.withReturns text)) = (handicapOf (Text.level text)).mapError fun _ =>
      .invalidHandicap (Text.level (Text.withReturns text)) := by
  by_cases feed : '\n' ∈ text
  · have refused : ∀ text : List Char, '\n' ∈ text →
        handicapOf (Text.level text) = .error (.invalidHandicap (Text.level text)) := by
      intro text feed
      have space := space_of_feed feed
      simp [handicapOf, not_empty_of_space space, Decimal.count_with_space space]
    rw [refused text feed, refused _ (feed_with_returns feed)]
    rfl
  · rw [Text.with_returns_of_line feed, ← handicap_own]

/-- A change of the texts inside a record that its reader takes no notice of, but for what is
shown of them. -/
structure Unnoticed (change : List Char → List Char) : Prop where
  empty : change [] = []
  winner : ∀ text : List Char, (∀ character ∈ text.head?, Text.isBlank character = false) →
    winnerOf (Text.level (change text)) = winnerOf (Text.level text)
  komi : ∀ text, komiOf (Text.level (change text)) =
    (komiOf (Text.level text)).mapError fun _ => .invalidKomi (Text.level (change text))
  handicap : ∀ text, handicapOf (Text.level (change text)) =
    (handicapOf (Text.level text)).mapError fun _ => .invalidHandicap (Text.level (change text))

theorem no_change_unnoticed : Unnoticed id :=
  ⟨rfl, fun _ _ => rfl, fun _ => komi_own _, fun _ => handicap_own _⟩

theorem returns_unnoticed : Unnoticed Text.withReturns :=
  ⟨rfl, fun _ start => winner_with_returns start, komi_with_returns, handicap_with_returns⟩

/-- A result with other texts in place of those that were taken from the record. -/
def retold (text : String → String) :
    Except RecordError GameRecord → Except RecordError GameRecord
  | .ok record => .ok { record with black := text "PB", white := text "PW" }
  | .error (.invalidKomi _) => .error (.invalidKomi (text "KM"))
  | .error (.invalidHandicap _) => .error (.invalidHandicap (text "HA"))
  | .error cause => .error cause

/-- The identifiers whose texts a result shows. -/
def shown : Except RecordError GameRecord → List String
  | .ok _ => ["PB", "PW"]
  | .error (.invalidKomi _) => ["KM"]
  | .error (.invalidHandicap _) => ["HA"]
  | .error _ => []

theorem retold_eq_retold {text other : String → String} {result : Except RecordError GameRecord} :
    retold text result = retold other result ↔
      ∀ ident ∈ shown result, text ident = other ident := by
  unfold retold shown
  split <;> simp

theorem level_get_d (text : Option (List Char)) :
    (text.map Text.level).getD "" = Text.level (text.getD []) := by
  cases text <;> rfl

theorem of_properties_unnoticed {change : List Char → List Char} (unnoticed : Unnoticed change)
    {properties others : List Property}
    (texts : ∀ ident, told? others ident = (told? properties ident).map change) :
    ofProperties others =
      retold (fun ident => Text.level (change ((told? properties ident).getD [])))
        (ofProperties properties) := by
  have changed : ∀ text : Option (List Char),
      (text.map change).getD [] = change (text.getD []) := by
    intro text
    cases text with
    | none => exact unnoticed.empty.symm
    | some text => rfl
  have winner : (text? others "RE").bind winnerOf = (text? properties "RE").bind winnerOf := by
    rw [text_eq_told, text_eq_told, texts]
    cases result : told? properties "RE" with
    | none => rfl
    | some text => exact unnoticed.winner text (told_start result)
  rw [of_properties_steps, of_properties_steps, winner]
  simp only [requiredText, text_eq_told, texts, level_get_d, changed, unnoticed.komi,
    unnoticed.handicap]
  cases black : told? properties "PB" with
  | none => rfl
  | some blackText =>
  cases white : told? properties "PW" with
  | none => rfl
  | some whiteText =>
  by_cases komi : IsKomi (Text.level ((told? properties "KM").getD []))
  · obtain ⟨points, komiRead⟩ := komi_accepted komi
    by_cases handicap : IsHandicap (Text.level ((told? properties "HA").getD []))
    · obtain ⟨stones, handicapRead⟩ := handicap_accepted handicap
      rw [komiRead, handicapRead]
      simp [Except.bind, Except.mapError, retold, black, white]
    · rw [komiRead, handicap_refused handicap]
      rfl
  · rw [komi_refused komi]
    rfl

/-- What a text tells under an identifier, nothing if it has no root node. -/
def told (raw : Bytes) (ident : String) : List Char :=
  match readRoot raw with
  | .ok properties => (told? properties ident).getD []
  | .error _ => []

theorem retold_of_refused {raw : Bytes} {cause : RecordError}
    (refused : readRoot raw = .error cause) (text : String → String) :
    retold text (.error cause) = .error cause := by
  cases read_root_eq_error.mp refused with
  | empty => rfl
  | missingGameTree => rfl
  | inNode _ _ failed => cases failed <;> rfl

theorem read_eq_retold (raw : Bytes) :
    read raw = retold (fun ident => Text.level (told raw ident)) (read raw) := by
  unfold told
  rw [read_stages]
  cases root : readRoot raw with
  | error cause => exact (retold_of_refused root _).symm
  | ok properties => exact of_properties_unnoticed no_change_unnoticed (by simp)

theorem read_with_returns {raw : Bytes} (noReturn : carriageReturn ∉ raw) :
    read (withReturns raw) =
      retold (fun ident => Text.level (Text.withReturns (told raw ident))) (read raw) := by
  unfold told
  rw [read_stages, read_stages, read_root_with_returns noReturn]
  cases root : readRoot raw with
  | error cause => exact (retold_of_refused root _).symm
  | ok properties =>
      exact of_properties_unnoticed returns_unnoticed (told_with_returns properties)

theorem same_information_of_lines {properties : List Property}
    (lines : ∀ property ∈ properties, property.ident ∈ informative → lineFeed ∉ property.value) :
    SameInformation (properties.map withReturnsInside) properties := by
  intro ident informs
  rw [lookup_with_returns]
  cases found : lookup ident properties with
  | none => rfl
  | some value =>
      obtain ⟨property, ⟨before, after, rfl, _⟩, rfl, rfl⟩ := lookup_eq_some.mp found
      rw [Option.map_some, Scorebook.with_returns_of_line (lines property (by simp) informs)]

/-- A text and the same with a carriage return in front of every line feed have the same root node,
only with the carriage returns in its values; so it makes no difference which line breaks stand
between tokens and behind backslashes. The game is the same, or the reason why there is none, but it
shows one space more for each line break left inside a text. It is told by the same words exactly if
no text that it shows has a line break inside. -/
theorem line_endings_show_inside_texts {raw : Bytes} (noReturn : carriageReturn ∉ raw) :
    readRoot (withReturns raw) = (readRoot raw).map (List.map withReturnsInside) ∧
    (∀ properties, readRoot raw = .ok properties →
      (∀ property ∈ properties, property.ident ∈ informative → lineFeed ∉ property.value) →
      read (withReturns raw) = read raw) ∧
    read raw = retold (fun ident => Text.level (told raw ident)) (read raw) ∧
    read (withReturns raw) =
      retold (fun ident => Text.level (Text.withReturns (told raw ident))) (read raw) ∧
    (read (withReturns raw) = read raw ↔ ∀ ident ∈ shown (read raw), '\n' ∉ told raw ident) := by
  refine ⟨read_root_with_returns noReturn, fun properties root lines => ?_, read_eq_retold raw,
    read_with_returns noReturn, ?_⟩
  · rw [read_stages, read_stages, read_root_with_returns noReturn, root]
    exact of_properties_congr (same_information_of_lines lines)
  · calc read (withReturns raw) = read raw
        ↔ retold (fun ident => Text.level (Text.withReturns (told raw ident))) (read raw) =
            retold (fun ident => Text.level (told raw ident)) (read raw) := by
          rw [← read_with_returns noReturn, ← read_eq_retold]
      _ ↔ ∀ ident ∈ shown (read raw),
            Text.level (Text.withReturns (told raw ident)) = Text.level (told raw ident) :=
          retold_eq_retold
      _ ↔ ∀ ident ∈ shown (read raw), '\n' ∉ told raw ident := by
          simp only [Text.level_with_returns]

/-- In a record with line breaks between its tokens, behind a backslash and at the end of a name
they may be of either kind. -/
theorem outer_line_breaks_do_not_show :
    let raw : Bytes := [openParenthesis, lineFeed, semicolon, 0x50, 0x42, openBracket, 0x61,
      backslash, lineFeed, 0x62, lineFeed, closeBracket, lineFeed, 0x50, 0x57, openBracket, 0x63,
      closeBracket]
    read (withReturns raw) = read raw ∧ (read raw).toOption.map (·.black) = some "ab" := by
  intro raw
  have noReturn : carriageReturn ∉ raw := by decide
  have oneLine : ∀ ident ∈ shown (read raw), '\n' ∉ told raw ident := by decide +kernel
  refine ⟨(line_endings_show_inside_texts noReturn).2.2.2.2.mpr oneLine, ?_⟩
  decide +kernel

/-- A line break inside a name is one space or two. -/
theorem line_ending_in_a_name_shows :
    let raw : Bytes := [openParenthesis, semicolon, 0x50, 0x42, openBracket, 0x61, lineFeed, 0x62,
      closeBracket, 0x50, 0x57, openBracket, 0x63, closeBracket, closeParenthesis]
    carriageReturn ∉ raw ∧ (read raw).toOption.map (·.black) = some "a b" ∧
      (read (withReturns raw)).toOption.map (·.black) = some "a  b" ∧
      read (withReturns raw) ≠ read raw := by
  intro raw
  have narrow : (read raw).toOption.map (·.black) = some "a b" := by decide +kernel
  have wide : (read (withReturns raw)).toOption.map (·.black) = some "a  b" := by decide +kernel
  refine ⟨by decide, narrow, wide, ?_⟩
  intro same
  rw [same, narrow] at wide
  exact absurd wide (by decide)

end KifuRatings.GameRecord
