import KifuRatings.Proofs.GameRecord.RootNode
import Mathlib.Logic.Relation

/-!
# What a record's text may be changed in

A game record is read from the first values of five properties of its root node. What follows the
node may be anything; in the node other properties may come and go, values may be added, properties
may change places and blanks may stand between tokens as they like. After each of these edits the
reader finds its way back, and the five values are the same.
-/

namespace KifuRatings.Property

/-! ## What a record is read from -/

def informative : List String := ["PB", "PW", "RE", "KM", "HA"]

def SameInformation (left right : List Property) : Prop :=
  ∀ ident ∈ informative, lookup ident left = lookup ident right

theorem of_properties_congr {left right : List Property} (same : SameInformation left right) :
    GameRecord.ofProperties left = GameRecord.ofProperties right := by
  have sameText : ∀ ident ∈ informative,
      GameRecord.text? left ident = GameRecord.text? right ident := by
    intro ident member
    rw [GameRecord.text?, GameRecord.text?, same ident member]
  rw [GameRecord.of_properties_steps, GameRecord.of_properties_steps, GameRecord.requiredText,
    GameRecord.requiredText, GameRecord.requiredText, GameRecord.requiredText,
    sameText "PB" (by decide), sameText "PW" (by decide), sameText "RE" (by decide),
    sameText "KM" (by decide), sameText "HA" (by decide)]

theorem lookup_append (ident : String) (before after : List Property) :
    lookup ident (before ++ after) = (lookup ident before).or (lookup ident after) := by
  rw [lookup, lookup, lookup, List.find?_append, Option.map_or]

theorem lookup_cons (ident : String) (property : Property) (rest : List Property) :
    lookup ident (property :: rest) =
      if property.ident = ident then some property.value else lookup ident rest := by
  rw [lookup, List.find?_cons]
  by_cases same : property.ident = ident
  · simp [same]
  · have other : (property.ident == ident) = false := by simpa using same
    rw [other, if_neg same, lookup]

theorem lookup_of_mem {ident : String} {properties : List Property}
    (occurs : ∃ earlier ∈ properties, earlier.ident = ident) :
    (lookup ident properties).isSome = true := by
  rw [lookup, Option.isSome_map, List.find?_isSome]
  obtain ⟨earlier, member, same⟩ := occurs
  exact ⟨earlier, member, by simp [same]⟩

/-- A property without information, or behind one with the same identifier, might be missing. -/
theorem inserted_information (before after : List Property) {property : Property}
    (unread : property.ident ∉ informative ∨ ∃ earlier ∈ before, earlier.ident = property.ident) :
    SameInformation (before ++ after) (before ++ property :: after) := by
  intro ident member
  rw [lookup_append, lookup_append, lookup_cons]
  split
  · rename_i same
    rcases unread with uninformative | occurs
    · exact absurd (same ▸ member) uninformative
    · obtain ⟨value, found⟩ := Option.isSome_iff_exists.mp (lookup_of_mem occurs)
      rw [← same, found]
      rfl
  · rfl

theorem exchanged_information (before after : List Property) {first second : Property}
    (different : first.ident ≠ second.ident) :
    SameInformation (before ++ first :: second :: after) (before ++ second :: first :: after) := by
  intro ident _
  rw [lookup_append, lookup_append, lookup_cons, lookup_cons, lookup_cons, lookup_cons]
  by_cases isFirst : first.ident = ident
  · have notSecond : second.ident ≠ ident := fun isSecond => different (isFirst.trans isSecond.symm)
    rw [if_pos isFirst, if_neg notSecond, if_pos isFirst]
  · rw [if_neg isFirst, if_neg isFirst]

theorem extended_information (before after : List Property) (property : Property)
    (further : List Bytes) :
    SameInformation (before ++ property :: after) (before ++ { property with further } :: after) := by
  intro ident _
  rw [lookup_append, lookup_append, lookup_cons, lookup_cons]

/-! ## Reading on behind properties -/

def NoFurtherValue (rest : Bytes) : Prop := (skipBlank rest).head? ≠ some openBracket

theorem read_values_none (ident : String) {rest : Bytes} (stop : NoFurtherValue rest) :
    readValues ident rest = .ok ([], skipBlank rest) := by
  obtain ⟨blanks, blank, same⟩ := blanks_before rest
  have noValue : NoValue (skipBlank rest) := by
    intro byte head
    exact ⟨not_blank_behind_blanks rest byte head, fun opened => stop (opened ▸ head)⟩
  rw [same, read_values_skip ident blank, read_values_stop ident noValue, ← same]

theorem read_all_skip_blank (rest : Bytes) : readAll (skipBlank rest) = readAll rest := by
  obtain ⟨blanks, blank, same⟩ := blanks_before rest
  have skipped := read_all_skip blank (skipBlank rest)
  rw [← same] at skipped
  exact skipped.symm

/-- What is read where values of a property have been read and more may follow. -/
def readBehind (property : Property) (rest : Bytes) : Except RecordError (List Property) :=
  (readValues property.ident rest).bind fun (later, after) =>
    (readAll after).map ({ property with further := property.further ++ later } :: ·)

theorem read_all_behind_property {text : Bytes} {property : Property}
    (written : IsProperty text property) (rest : Bytes) :
    readAll (text ++ rest) = readBehind property rest := by
  cases written with
  | @mk letters blanks text value further ident gap values =>
      have noLetter : ∀ byte ∈ (blanks ++ (text ++ rest)).head?, isCapital byte = false := by
        refine no_letter_behind_blanks gap fun _ byte head => ?_
        rw [List.head?_append, values_start values] at head
        have same : openBracket = byte := by simpa using head
        rw [← same]
        rfl
      rw [List.append_assoc, List.append_assoc, read_all_letters ident noLetter,
        read_values_skip _ gap, read_values_append _ values, readBehind]
      cases readValues (ofCapitals letters) rest <;> rfl

theorem read_all_behind_properties {text : Bytes} {before : List Property} {last : Property}
    (written : Properties text (before ++ [last])) (rest : Bytes) :
    readAll (text ++ rest) = (readBehind last rest).map (before ++ ·) := by
  induction before generalizing text with
  | nil =>
      cases written with
      | cons first others =>
          cases others
          rw [List.append_nil, read_all_behind_property first]
          cases readBehind last rest <;> rfl
  | cons property before induction =>
      cases written with
      | @cons _ more _ _ first others =>
          have stop : NoValue (more ++ rest) := by
            cases before <;> cases others with
            | cons next later =>
                rw [List.append_assoc]
                exact property_start next _
          rw [List.append_assoc, read_all_property first stop, induction others]
          cases readBehind last rest <;> rfl

theorem read_all_properties_then {text : Bytes} {properties : List Property}
    (written : Properties text properties) {rest : Bytes} (stop : NoFurtherValue rest) :
    readAll (text ++ rest) = (readAll rest).map (properties ++ ·) := by
  rcases List.eq_nil_or_concat properties with rfl | ⟨before, last, rfl⟩
  · cases written
    rw [List.nil_append]
    cases readAll rest <;> rfl
  · rw [List.concat_eq_append] at written ⊢
    rw [read_all_behind_properties written, readBehind, read_values_none _ stop]
    change ((readAll (skipBlank rest)).map _).map _ = _
    rw [read_all_skip_blank]
    cases readAll rest with
    | error cause => rfl
    | ok later => simp [Except.map]

theorem no_further_value_of_property {text : Bytes} {property : Property}
    (written : IsProperty text property) (rest : Bytes) : NoFurtherValue (text ++ rest) := by
  have start := property_start written rest
  rw [NoFurtherValue, skip_blank_of_head fun byte head => (start byte head).1]
  exact fun opened => (start openBracket opened).2 rfl

theorem no_further_value_of_letters {letters : Bytes} (ident : Letters letters) (rest : Bytes) :
    NoFurtherValue (letters ++ rest) := by
  obtain ⟨byte, others, rfl⟩ := List.exists_cons_of_ne_nil ident.1
  have plain := capital_is_plain (ident.2 byte (by simp))
  rw [NoFurtherValue, List.cons_append, skip_blank_of_head (by simpa using plain.1)]
  simpa using plain.2.2

/-! ## Between tokens -/

/-- What has been read of a root node when the reader comes to a byte outside all values: its
opening and some properties, or also an identifier whose values are to come. -/
inductive OutsideValues : Bytes → Prop where
  | atProperty {opening text : Bytes} {properties : List Property} (opened : Opening opening)
      (read : Properties text properties) : OutsideValues (opening ++ text)
  | atValue {opening text letters gap : Bytes} {properties : List Property}
      (opened : Opening opening) (read : Properties text properties) (ident : Letters letters)
      (blank : Blank gap) : OutsideValues (opening ++ (text ++ (letters ++ gap)))

/-- Where one token of a root node ends and blanks may follow. -/
inductive TokenEnd : Bytes → Prop where
  | start : TokenEnd []
  | parenthesis {blanks : Bytes} (blank : Blank blanks) : TokenEnd (blanks ++ [openParenthesis])
  | inNode {before : Bytes} (outside : OutsideValues before) : TokenEnd before

/-- No identifier goes on from one text to the other. -/
def Uncut (before after : Bytes) : Prop :=
  ∀ last ∈ before.getLast?, ∀ next ∈ after.head?, ¬(isCapital last = true ∧ isCapital next = true)

inductive Edit : Bytes → Bytes → Prop where
  /-- What follows the root node is replaced. -/
  | ending {opening text rest other : Bytes} {properties : List Property}
      (opened : Opening opening) (read : Properties text properties) (ended : Ended rest)
      (endedToo : Ended other) : Edit (opening ++ (text ++ rest)) (opening ++ (text ++ other))
  /-- A property is inserted that carries no information or repeats an identifier. -/
  | insert {opening text added rest : Bytes} {properties : List Property} {property : Property}
      (opened : Opening opening) (read : Properties text properties)
      (wellFormed : IsProperty added property)
      (unread : property.ident ∉ informative ∨
        ∃ earlier ∈ properties, earlier.ident = property.ident)
      (boundary : NoFurtherValue rest) :
      Edit (opening ++ (text ++ rest)) (opening ++ (text ++ (added ++ rest)))
  /-- A property gets more values behind its first one. -/
  | extend {opening text more rest : Bytes} {before : List Property} {last : Property}
      {values : List Bytes} (opened : Opening opening) (read : Properties text (before ++ [last]))
      (written : Values more values) :
      Edit (opening ++ (text ++ rest)) (opening ++ (text ++ (more ++ rest)))
  /-- Neighbours with different identifiers change places. -/
  | exchange {opening text left right rest : Bytes} {properties : List Property}
      {first second : Property} (opened : Opening opening) (read : Properties text properties)
      (isFirst : IsProperty left first) (isSecond : IsProperty right second)
      (different : first.ident ≠ second.ident) (boundary : NoFurtherValue rest) :
      Edit (opening ++ (text ++ (left ++ (right ++ rest))))
        (opening ++ (text ++ (right ++ (left ++ rest))))
  /-- Other blanks stand between two tokens, or none do. -/
  | spacing {before blanks others after : Bytes} (token : TokenEnd before) (blank : Blank blanks)
      (blankToo : Blank others) (uncut : blanks = [] → Uncut before after) :
      Edit (before ++ (blanks ++ after)) (before ++ (others ++ after))

/-! ## What an edit does -/

/-- A byte that ends the node might be the end of the text. -/
theorem read_root_of_ending {before : Bytes} (outside : OutsideValues before) {byte : UInt8}
    (ends : endsNode byte = true) (rest : Bytes) :
    readRoot (before ++ byte :: rest) = readRoot before := by
  have noEnd : Ended [] := by simp [Ended]
  have ended : Ended (byte :: rest) := by simpa [Ended] using ends
  cases outside with
  | @atProperty opening text properties opened read =>
      have alone := read_root_node (.mk opened read noEnd)
      have further := read_root_node (.mk opened read ended)
      rw [List.append_nil] at alone
      rw [alone, List.append_assoc, further]
  | @atValue opening text letters gap properties opened read ident blank =>
      -- At the end of the node a missing value is the same mistake as at the end of the text.
      have mistake : ∀ rest, Ended rest →
          readRoot (opening ++ (text ++ (letters ++ (gap ++ rest)))) =
            .error (.missingValue (ofCapitals letters)) := by
        intro rest ended
        have noLetter : ∀ byte ∈ rest.head?, isCapital byte = false := by
          intro byte head
          by_contra capital
          have inNode := (capital_is_plain (by simpa using capital)).2.1
          rw [ended byte head] at inNode
          cases inNode
        rw [read_root_opened opened,
          read_all_properties_then read (no_further_value_of_letters ident _),
          read_all_mistake (.missingValue ident blank (fun _ => noLetter)
            (no_value_of_ended ended))]
        rfl
      have alone := mistake [] noEnd
      rw [List.append_nil] at alone
      rw [alone, ← mistake (byte :: rest) ended]
      simp [List.append_assoc]

theorem map_eq_ok {ε α β : Type} {attempt : Except ε α} {change : α → β} {result : β} :
    attempt.map change = .ok result ↔ ∃ value, attempt = .ok value ∧ change value = result := by
  cases attempt <;> simp [Except.map]

theorem properties_of_one {text : Bytes} {property : Property} (written : IsProperty text property) :
    Properties text [property] := by
  simpa using Properties.cons written .nil

theorem read_all_of_insert {text added rest : Bytes} {properties : List Property}
    {property : Property} (read : Properties text properties)
    (wellFormed : IsProperty added property) (boundary : NoFurtherValue rest)
    {all : List Property} (passes : readAll (text ++ rest) = .ok all) :
    ∃ later, all = properties ++ later ∧
      readAll (text ++ (added ++ rest)) = .ok (properties ++ property :: later) := by
  rw [read_all_properties_then read boundary, map_eq_ok] at passes
  obtain ⟨later, readRest, rfl⟩ := passes
  refine ⟨later, rfl, ?_⟩
  rw [read_all_properties_then read (no_further_value_of_property wellFormed rest),
    read_all_properties_then (properties_of_one wellFormed) boundary, readRest]
  rfl

theorem read_all_of_exchange {text left right rest : Bytes} {properties : List Property}
    {first second : Property} (read : Properties text properties)
    (isFirst : IsProperty left first) (isSecond : IsProperty right second)
    (boundary : NoFurtherValue rest) :
    readAll (text ++ (left ++ (right ++ rest))) =
      (readAll rest).map fun later => properties ++ first :: second :: later := by
  rw [read_all_properties_then read (no_further_value_of_property isFirst _),
    read_all_properties_then (properties_of_one isFirst) (no_further_value_of_property isSecond _),
    read_all_properties_then (properties_of_one isSecond) boundary]
  cases readAll rest <;> rfl

theorem read_all_of_extend {text more rest : Bytes} {before : List Property} {last : Property}
    {values : List Bytes} (read : Properties text (before ++ [last]))
    (written : Values more values) {all : List Property}
    (passes : readAll (text ++ rest) = .ok all) :
    ∃ further longer later, all = before ++ { last with further } :: later ∧
      readAll (text ++ (more ++ rest)) = .ok (before ++ { last with further := longer } :: later) := by
  rw [read_all_behind_properties read, readBehind] at passes
  rw [read_all_behind_properties read, readBehind, read_values_append _ written]
  cases readLater : readValues last.ident rest with
  | error cause =>
      rw [readLater] at passes
      cases passes
  | ok result =>
      obtain ⟨laterValues, after⟩ := result
      rw [readLater] at passes
      change ((readAll after).map _).map _ = _ at passes
      obtain ⟨behind, readBehind, rfl⟩ := map_eq_ok.mp passes
      obtain ⟨later, readRest, rfl⟩ := map_eq_ok.mp readBehind
      refine ⟨_, last.further ++ (values ++ laterValues), later, rfl, ?_⟩
      change ((readAll after).map _).map _ = _
      rw [readRest]
      rfl

theorem read_root_skip {blanks : Bytes} (blank : Blank blanks) (text : Bytes) :
    readRoot (blanks ++ text) = readRoot text := by
  rw [readRoot, readRoot, skip_blank_append blank]

theorem read_root_skip_behind_parenthesis {before blanks : Bytes} (blankBefore : Blank before)
    (blank : Blank blanks) (text : Bytes) :
    readRoot (before ++ [openParenthesis] ++ (blanks ++ text)) =
      readRoot (before ++ [openParenthesis] ++ text) := by
  have start : ∀ rest, skipBlank (openParenthesis :: rest) = openParenthesis :: rest :=
    fun rest => skip_blank_of_head (by simp; decide)
  rw [List.append_assoc, List.append_assoc, read_root_skip blankBefore, read_root_skip blankBefore,
    List.singleton_append, List.singleton_append, readRoot, readRoot, start, start]
  simp only [skip_blank_append blank]

theorem no_letter_of_values {ident : String} {text value after : Bytes} {further : List Bytes}
    (read : readValues ident text = .ok (value :: further, after)) :
    ∀ byte ∈ text.head?, isCapital byte = false := by
  intro byte head
  by_contra capital
  have plain := capital_is_plain (by simpa using capital)
  have stop : NoValue text := by
    intro other otherHead
    obtain rfl : byte = other := Option.some.inj (head.symm.trans otherHead)
    exact ⟨plain.1, plain.2.2⟩
  rw [read_values_stop ident stop] at read
  cases read

theorem read_all_skip_behind_properties {text blanks : Bytes} {properties : List Property}
    (read : Properties text properties) (blank : Blank blanks) (after : Bytes) :
    readAll (text ++ (blanks ++ after)) = readAll (text ++ after) := by
  rcases List.eq_nil_or_concat properties with rfl | ⟨before, last, rfl⟩
  · cases read
    exact read_all_skip blank after
  · rw [List.concat_eq_append] at read
    rw [read_all_behind_properties read, read_all_behind_properties read, readBehind, readBehind,
      read_values_skip _ blank]

/-- Behind an identifier blanks change nothing once its values are read. -/
theorem read_all_respaced {letters blanks others after : Bytes} (ident : Letters letters)
    (blank : Blank blanks) (blankToo : Blank others)
    (uncut : blanks = [] → ∀ byte ∈ after.head?, isCapital byte = false) {all : List Property}
    (passes : readAll (letters ++ (blanks ++ after)) = .ok all) :
    readAll (letters ++ (others ++ after)) = .ok all := by
  rw [read_all_letters ident (no_letter_behind_blanks blank uncut), read_values_skip _ blank]
    at passes
  cases read : readValues (ofCapitals letters) after with
  | error cause =>
      rw [read] at passes
      cases passes
  | ok result =>
      obtain ⟨values, rest⟩ := result
      cases values with
      | nil =>
          rw [read] at passes
          cases passes
      | cons value further =>
          rw [read_all_letters ident
              (no_letter_behind_blanks blankToo fun _ => no_letter_of_values read),
            read_values_skip _ blankToo, passes]

theorem no_letter_of_uncut {front letters after : Bytes} (ident : Letters letters)
    (uncut : Uncut (front ++ letters) after) : ∀ byte ∈ after.head?, isCapital byte = false := by
  intro next head
  have isLast : letters.getLast? = some (letters.getLast ident.1) :=
    List.getLast?_eq_some_getLast ident.1
  have behind : (front ++ letters).getLast? = some (letters.getLast ident.1) := by
    rw [List.getLast?_append, isLast, Option.some_or]
  by_contra capital
  exact uncut _ behind next head
    ⟨ident.2 _ (List.getLast_mem ident.1), by simpa using capital⟩

theorem read_root_respaced {before blanks others after : Bytes} (token : TokenEnd before)
    (blank : Blank blanks) (blankToo : Blank others) (uncut : blanks = [] → Uncut before after)
    {all : List Property} (passes : readRoot (before ++ (blanks ++ after)) = .ok all) :
    readRoot (before ++ (others ++ after)) = .ok all := by
  cases token with
  | start =>
      rw [List.nil_append, read_root_skip blank] at passes
      rw [List.nil_append, read_root_skip blankToo, passes]
  | parenthesis blankBefore =>
      rw [read_root_skip_behind_parenthesis blankBefore blank] at passes
      rw [read_root_skip_behind_parenthesis blankBefore blankToo, passes]
  | inNode outside =>
      cases outside with
      | @atProperty opening text properties opened read =>
          rw [List.append_assoc, read_root_opened opened] at passes ⊢
          rw [read_all_skip_behind_properties read blank] at passes
          rw [read_all_skip_behind_properties read blankToo, passes]
      | @atValue opening text letters gap properties opened read ident gapBlank =>
          have uncutLetters : gap ++ blanks = [] → ∀ byte ∈ after.head?, isCapital byte = false := by
            intro none
            obtain ⟨rfl, noBlanks⟩ := List.append_eq_nil_iff.mp none
            refine no_letter_of_uncut ident (?_ : Uncut (opening ++ text ++ letters) after)
            simpa only [List.append_assoc, List.append_nil] using uncut noBlanks
          simp only [List.append_assoc] at passes ⊢
          rw [read_root_opened opened,
            read_all_properties_then read (no_further_value_of_letters ident _)] at passes ⊢
          obtain ⟨later, readRest, rfl⟩ := map_eq_ok.mp passes
          rw [← List.append_assoc gap] at readRest
          have respaced := read_all_respaced ident (blank_append gapBlank blank)
            (blank_append gapBlank blankToo) uncutLetters readRest
          rw [List.append_assoc] at respaced
          rw [respaced]
          rfl

/-- An edit keeps a readable root node readable, and its information. -/
theorem edit_keeps_information {raw edited : Bytes} (edit : Edit raw edited)
    {properties : List Property} (passes : readRoot raw = .ok properties) :
    ∃ others, readRoot edited = .ok others ∧ SameInformation properties others := by
  cases edit with
  | ending opened read ended endedToo =>
      obtain rfl := Except.ok.inj (passes.symm.trans (read_root_node (.mk opened read ended)))
      exact ⟨_, read_root_node (.mk opened read endedToo), fun _ _ => rfl⟩
  | insert opened read wellFormed unread boundary =>
      rw [read_root_opened opened] at passes
      obtain ⟨later, rfl, inserted⟩ := read_all_of_insert read wellFormed boundary passes
      rw [read_root_opened opened]
      exact ⟨_, inserted, inserted_information _ later unread⟩
  | extend opened read written =>
      rw [read_root_opened opened] at passes
      obtain ⟨further, longer, later, rfl, extended⟩ := read_all_of_extend read written passes
      rw [read_root_opened opened]
      exact ⟨_, extended, extended_information _ later _ longer⟩
  | exchange opened read isFirst isSecond different boundary =>
      -- Reading the rest does not depend on which of the two comes first.
      rw [read_root_opened opened, read_all_of_exchange read isFirst isSecond boundary] at passes
      obtain ⟨later, readRest, rfl⟩ := map_eq_ok.mp passes
      rw [read_root_opened opened, read_all_of_exchange read isSecond isFirst boundary, readRest]
      exact ⟨_, rfl, exchanged_information _ later different⟩
  | spacing token blank blankToo uncut =>
      exact ⟨_, read_root_respaced token blank blankToo uncut passes, fun _ _ => rfl⟩

theorem edits_keep_information {raw edited : Bytes} (edits : Relation.ReflTransGen Edit raw edited)
    {properties : List Property} (passes : readRoot raw = .ok properties) :
    ∃ others, readRoot edited = .ok others ∧ SameInformation properties others := by
  induction edits with
  | refl => exact ⟨properties, passes, fun _ _ => rfl⟩
  | tail _ edit induction =>
      obtain ⟨between, readBetween, sameBefore⟩ := induction
      obtain ⟨others, readOthers, sameAfter⟩ := edit_keeps_information edit readBetween
      exact ⟨others, readOthers,
        fun ident member => (sameBefore ident member).trans (sameAfter ident member)⟩

end KifuRatings.Property

namespace KifuRatings.GameRecord

open Property

/-- Only the first values of the five properties matter. A readable root node ends outside all
values; where a byte ends a root node there, nothing behind that byte is looked at, and the byte
itself might be missing. And however often a text with a readable root node is edited, it denotes
the same game or is refused for the same reason. -/
theorem only_root_information_matters :
    (∀ raw properties, readRoot raw = .ok properties →
      ∃ before rest, raw = before ++ rest ∧ OutsideValues before ∧ Ended rest) ∧
    (∀ before byte rest, OutsideValues before → endsNode byte = true →
      read (before ++ [byte]) = read before ∧ read (before ++ byte :: rest) = read before) ∧
    (∀ raw edited properties, Relation.ReflTransGen Edit raw edited →
      readRoot raw = .ok properties →
      (∃ others, readRoot edited = .ok others) ∧ read edited = read raw) := by
  have stages : ∀ raw, read raw = (readRoot raw).bind ofProperties := fun _ => rfl
  refine ⟨fun raw properties passes => ?_, fun before byte rest outside ends => ?_,
    fun raw edited properties edits passes => ?_⟩
  · cases read_root_eq_ok.mp passes with
    | @mk opening text rest _ opened read ended =>
        exact ⟨opening ++ text, rest, (List.append_assoc ..).symm, .atProperty opened read, ended⟩
  · constructor
    · rw [stages, stages, read_root_of_ending outside ends []]
    · rw [stages, stages, read_root_of_ending outside ends rest]
  · obtain ⟨others, readOthers, same⟩ := edits_keep_information edits passes
    refine ⟨⟨others, readOthers⟩, ?_⟩
    rw [stages, stages, readOthers, passes]
    exact (of_properties_congr same).symm

/-- `(;PB[a]PW[b])` is the same game with another end, and as a line `(;PB[a]PW[b]GM[1];]`. -/
theorem a_game_survives_edits :
    let black : Bytes := [0x50, 0x42, openBracket, 0x61, closeBracket]
    let white : Bytes := [0x50, 0x57, openBracket, 0x62, closeBracket]
    let mark : Bytes := [0x47, 0x4D, openBracket, 0x31, closeBracket]
    let node : Bytes := [openParenthesis, semicolon] ++ (black ++ white)
    (∀ rest, read (node ++ closeParenthesis :: rest) = read node) ∧
      read ([lineFeed] ++ (node ++ mark ++ [semicolon, closeBracket])) =
        read (node ++ [closeParenthesis]) := by
  intro black white mark node
  have noBlank : Blank [] := by simp [Blank]
  have opened : Opening [openParenthesis, semicolon] := @Opening.mk [] [] [] noBlank noBlank noBlank
  have simple : ∀ first second byte, isCapital first = true → isCapital second = true →
      byte ≠ closeBracket → byte ≠ backslash →
      IsProperty [first, second, openBracket, byte, closeBracket]
        ⟨ofCapitals [first, second], [byte], []⟩ := by
    intro first second byte capital capitalToo unclosed unescaped
    exact @IsProperty.mk [first, second] [] _ _ _ ⟨by simp, by simp [capital, capitalToo]⟩ noBlank
      (.cons (.plain unclosed unescaped .nil) noBlank .nil)
  have isBlack := simple 0x50 0x42 0x61 (by decide) (by decide) (by decide) (by decide)
  have isWhite := simple 0x50 0x57 0x62 (by decide) (by decide) (by decide) (by decide)
  have isMark := simple 0x47 0x4D 0x31 (by decide) (by decide) (by decide) (by decide)
  have onlyBlack : Properties black _ := .cons isBlack .nil
  have players : Properties (black ++ white) _ := .cons isBlack (.cons isWhite .nil)
  have marked : Properties (black ++ (white ++ mark)) _ :=
    .cons isBlack (.cons isWhite (.cons isMark .nil))
  have ended : ∀ byte rest, endsNode byte = true → Ended (byte :: rest) :=
    fun byte rest ends => by simpa [Ended] using ends
  have closed : NoFurtherValue [closeParenthesis] := by unfold NoFurtherValue; decide
  have inserted : Edit (node ++ [closeParenthesis])
      ([openParenthesis, semicolon] ++ (black ++ (mark ++ (white ++ [closeParenthesis])))) :=
    .insert opened onlyBlack isMark (.inl (by decide))
      (no_further_value_of_property isWhite _)
  have exchanged : Edit
      ([openParenthesis, semicolon] ++ (black ++ (mark ++ (white ++ [closeParenthesis]))))
      (node ++ mark ++ [closeParenthesis]) :=
    .exchange opened onlyBlack isMark isWhite (by decide) closed
  have goesOn : Edit (node ++ mark ++ [closeParenthesis])
      (node ++ mark ++ [semicolon, closeBracket]) :=
    .ending opened marked (ended closeParenthesis [] (by decide))
      (ended semicolon [closeBracket] (by decide))
  have moved : Edit (node ++ mark ++ [semicolon, closeBracket])
      ([lineFeed] ++ (node ++ mark ++ [semicolon, closeBracket])) :=
    @Edit.spacing [] [] [lineFeed] _ .start noBlank (by simp [Blank]; decide) (by simp [Uncut])
  refine ⟨fun rest => (only_root_information_matters.2.1 node closeParenthesis rest
    (.atProperty opened players) (by decide)).2, ?_⟩
  exact (only_root_information_matters.2.2 _ _ _
    (.head inserted (.head exchanged (.head goesOn (.single moved))))
    (read_root_node (.mk opened players (ended closeParenthesis [] (by decide))))).2

end KifuRatings.GameRecord
