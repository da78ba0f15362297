import KifuRatings.Proofs.GameRecord.Properties

/-!
# Which texts are game records

The reader accepts exactly the texts with a root node and gives the properties that the
grammar denotes. Every other text is refused for its first mistake, and a root node that
makes no game record for the first of four reasons.
-/

namespace KifuRatings.Property

theorem read_root_opened {opening : Bytes} (opened : Opening opening) (text : Bytes) :
    readRoot (opening ++ text) = readAll text := by
  cases opened with
  | @mk before between after blankBefore blankBetween blankAfter =>
      have regroup : before ++ openParenthesis :: (between ++ semicolon :: after) ++ text =
          before ++ openParenthesis :: (between ++ semicolon :: (after ++ text)) := by
        simp [List.append_assoc]
      have parenthesis : ∀ rest, skipBlank (openParenthesis :: rest) = openParenthesis :: rest :=
        fun rest => skip_blank_of_head (by simp; decide)
      have nodeStart : ∀ rest, skipBlank (semicolon :: rest) = semicolon :: rest :=
        fun rest => skip_blank_of_head (by simp; decide)
      rw [regroup, readRoot, skip_blank_append blankBefore, parenthesis]
      simp only [if_true]
      rw [skip_blank_append blankBetween, nodeStart]
      simp only [if_true]
      exact read_all_skip blankAfter text

theorem skip_blank_eq_nil {text : Bytes} : skipBlank text = [] ↔ Blank text := by
  exact List.dropWhile_eq_nil_iff

/-- A text that starts with neither blanks alone nor the two opening bytes. -/
theorem read_root_unopened {raw : Bytes} (notBlank : ¬ Blank raw)
    (unopened : ∀ opening rest, Opening opening → raw ≠ opening ++ rest) :
    readRoot raw = .error .missingGameTree := by
  obtain ⟨before, blankBefore, same⟩ := blanks_before raw
  rw [readRoot]
  split
  · rename_i ended
    exact absurd (skip_blank_eq_nil.mp ended) notBlank
  · rename_i first rest started
    split
    · rename_i isOpen
      obtain ⟨between, blankBetween, restSame⟩ := blanks_before rest
      split
      · rfl
      · rename_i second inside restStarted
        split
        · rename_i isStart
          have opened := Opening.mk blankBefore blankBetween (by simp [Blank] : Blank [])
          refine absurd ?_ (unopened _ inside opened)
          rw [same, started, isOpen, restSame, restStarted, isStart]
          simp
        · rfl
    · rfl

theorem read_root_node {raw : Bytes} {properties : List Property}
    (node : RootNode raw properties) : readRoot raw = .ok properties := by
  cases node with
  | mk opened read ended =>
      rw [read_root_opened opened, read_all_properties read fun _ => no_value_of_ended ended,
        read_all_ended ended]
      simp [Except.map]

theorem read_root_mistake {raw : Bytes} {cause : RecordError} (mistake : Mistake cause raw) :
    readRoot raw = .error cause := by
  cases mistake with
  | empty blank => rw [readRoot, skip_blank_eq_nil.mpr blank]
  | missingGameTree notBlank unopened => exact read_root_unopened notBlank unopened
  | inNode opened read failed noValue =>
      rw [read_root_opened opened,
        read_all_properties read fun some => no_value_of_mistake failed (noValue some),
        read_all_mistake failed]
      rfl

theorem blank_append {before after : Bytes} (blank : Blank before) (blankToo : Blank after) :
    Blank (before ++ after) := by
  intro byte member
  rcases List.mem_append.mp member with member | member
  · exact blank byte member
  · exact blankToo byte member

theorem opening_with_blanks {opening blanks : Bytes} (opened : Opening opening)
    (blank : Blank blanks) : Opening (opening ++ blanks) := by
  cases opened with
  | @mk before between after blankBefore blankBetween blankAfter =>
      have opened := Opening.mk blankBefore blankBetween (blank_append blankAfter blank)
      simpa [List.append_assoc] using opened

theorem root_node_or_mistake (raw : Bytes) :
    (∃ properties, RootNode raw properties) ∨ ∃ cause, Mistake cause raw := by
  by_cases blank : Blank raw
  · exact .inr ⟨_, .empty blank⟩
  by_cases opened : ∃ opening rest, Opening opening ∧ raw = opening ++ rest
  · obtain ⟨opening, rest, isOpening, same⟩ := opened
    obtain ⟨blanks, isBlank, restSame⟩ := blanks_before rest
    have longest := opening_with_blanks isOpening isBlank
    have split := every_text_splits_at_node (skipBlank rest) (not_blank_behind_blanks rest)
    rw [restSame, ← List.append_assoc] at same
    rw [same]
    generalize skipBlank rest = body at split
    cases split with
    | ended read ended => exact .inl ⟨_, .mk longest read ended⟩
    | failed read failed noValue => exact .inr ⟨_, .inNode longest read failed noValue⟩
  · refine .inr ⟨_, .missingGameTree blank ?_⟩
    intro opening rest isOpening same
    exact opened ⟨opening, rest, isOpening, same⟩

/-- The reader accepts what the grammar accepts and denotes what it denotes. -/
theorem read_root_eq_ok {raw : Bytes} {properties : List Property} :
    readRoot raw = .ok properties ↔ RootNode raw properties := by
  refine ⟨fun read => ?_, read_root_node⟩
  rcases root_node_or_mistake raw with ⟨denoted, node⟩ | ⟨cause, mistake⟩
  · have same := read.symm.trans (read_root_node node)
    exact Except.ok.inj same ▸ node
  · have same := read.symm.trans (read_root_mistake mistake)
    simp at same

theorem read_root_eq_error {raw : Bytes} {cause : RecordError} :
    readRoot raw = .error cause ↔ Mistake cause raw := by
  refine ⟨fun read => ?_, read_root_mistake⟩
  rcases root_node_or_mistake raw with ⟨denoted, node⟩ | ⟨other, mistake⟩
  · have same := read.symm.trans (read_root_node node)
    simp at same
  · have same := read.symm.trans (read_root_mistake mistake)
    exact Except.error.inj same ▸ mistake

/-- A property that no earlier one hides. -/
def Counts (properties : List Property) (property : Property) : Prop :=
  ∃ before after, properties = before ++ property :: after ∧
    ∀ earlier ∈ before, earlier.ident ≠ property.ident

theorem lookup_eq_some {properties : List Property} {ident : String} {value : Bytes} :
    lookup ident properties = some value ↔
      ∃ property, Counts properties property ∧ property.ident = ident ∧ property.value = value := by
  unfold lookup
  rw [Option.map_eq_some_iff]
  constructor
  · intro valued
    rcases valued with ⟨property, found, isValue⟩
    obtain ⟨matching, before, after, same, earlier⟩ := List.find?_eq_some_iff_append.mp found
    have isIdent : property.ident = ident := by simpa using matching
    refine ⟨property, ⟨before, after, same, ?_⟩, isIdent, isValue⟩
    intro other member
    simpa [isIdent] using earlier other member
  · intro counted
    rcases counted with ⟨property, ⟨before, after, same, earlier⟩, isIdent, isValue⟩
    refine ⟨property, List.find?_eq_some_iff_append.mpr ⟨?_, before, after, same, ?_⟩, isValue⟩
    · simpa using isIdent
    · intro other member
      simpa [isIdent] using earlier other member

end KifuRatings.Property

namespace KifuRatings.GameRecord

open Property

def IsKomi (text : String) : Prop :=
  text = "" ∨ ∃ komi, Decimal.readFloat? text = some komi ∧ komi.isFinite = true

def IsHandicap (text : String) : Prop := text = "" ∨ ∃ stones, Decimal.readCount? text = some stones

/-- Why properties make no game record. A reason holds only if none before it does. -/
inductive Unusable (properties : List Property) : RecordError → Prop where
  | noBlack (black : text? properties "PB" = none) : Unusable properties (.missingProperty "PB")
  | noWhite (black : text? properties "PB" ≠ none) (white : text? properties "PW" = none) :
      Unusable properties (.missingProperty "PW")
  | badKomi {text : String} (black : text? properties "PB" ≠ none)
      (white : text? properties "PW" ≠ none) (komi : text? properties "KM" = some text)
      (bad : ¬ IsKomi text) : Unusable properties (.invalidKomi text)
  | badHandicap {text : String} (black : text? properties "PB" ≠ none)
      (white : text? properties "PW" ≠ none)
      (komi : ∀ text, text? properties "KM" = some text → IsKomi text)
      (handicap : text? properties "HA" = some text) (bad : ¬ IsHandicap text) :
      Unusable properties (.invalidHandicap text)

theorem komi_refused {text : String} (bad : ¬ IsKomi text) :
    komiOf text = .error (.invalidKomi text) := by
  have notEmpty : text ≠ "" := fun empty => bad (.inl empty)
  have given : text.isEmpty = false := by simpa using notEmpty
  rw [komiOf, given]
  simp only [Bool.false_eq_true, if_false]
  split
  · rename_i komi read
    have infinite : komi.isFinite = false := by
      by_contra finite
      exact bad (.inr ⟨komi, read, by simpa using finite⟩)
    simp [infinite]
  · rfl

theorem komi_accepted {text : String} (good : IsKomi text) : ∃ komi, komiOf text = .ok komi := by
  rcases good with rfl | ⟨komi, read, finite⟩
  · exact ⟨0.0, rfl⟩
  · by_cases given : text.isEmpty = true
    · exact ⟨0.0, by rw [komiOf, given]; rfl⟩
    · exact ⟨komi, by simp [komiOf, given, read, finite]⟩

theorem handicap_refused {text : String} (bad : ¬ IsHandicap text) :
    handicapOf text = .error (.invalidHandicap text) := by
  have notEmpty : text ≠ "" := fun empty => bad (.inl empty)
  have given : text.isEmpty = false := by simpa using notEmpty
  rw [handicapOf, given]
  simp only [Bool.false_eq_true, if_false]
  split
  · rename_i stones read
    exact absurd (.inr ⟨stones, read⟩) bad
  · rfl

theorem handicap_accepted {text : String} (good : IsHandicap text) :
    ∃ handicap, handicapOf text = .ok handicap := by
  rcases good with rfl | ⟨stones, read⟩
  · exact ⟨none, rfl⟩
  · by_cases given : text.isEmpty = true
    · exact ⟨none, by rw [handicapOf, given]; rfl⟩
    · exact ⟨some stones, by simp [handicapOf, given, read]⟩

theorem of_properties_steps (properties : List Property) :
    ofProperties properties =
      (requiredText properties "PB").bind fun black =>
        (requiredText properties "PW").bind fun white =>
          (komiOf ((text? properties "KM").getD "")).bind fun komi =>
            (handicapOf ((text? properties "HA").getD "")).bind fun handicap =>
              .ok { black, white, winner := (text? properties "RE").bind winnerOf, handicap,
                    komi } := rfl

theorem good_komi_of_all {properties : List Property}
    (komi : ∀ text, text? properties "KM" = some text → IsKomi text) :
    IsKomi ((text? properties "KM").getD "") := by
  cases written : text? properties "KM" with
  | none => exact .inl rfl
  | some text => exact komi text written

theorem of_properties_unusable {properties : List Property} {cause : RecordError}
    (unusable : Unusable properties cause) : ofProperties properties = .error cause := by
  rw [of_properties_steps]
  cases unusable with
  | noBlack black => simp [requiredText, black, Except.bind]
  | noWhite black white =>
      obtain ⟨name, named⟩ := Option.ne_none_iff_exists'.mp black
      simp [requiredText, named, white, Except.bind]
  | badKomi black white komi bad =>
      obtain ⟨blackName, blackNamed⟩ := Option.ne_none_iff_exists'.mp black
      obtain ⟨whiteName, whiteNamed⟩ := Option.ne_none_iff_exists'.mp white
      simp [requiredText, blackNamed, whiteNamed, komi, komi_refused bad, Except.bind]
  | badHandicap black white komi handicap bad =>
      obtain ⟨blackName, blackNamed⟩ := Option.ne_none_iff_exists'.mp black
      obtain ⟨whiteName, whiteNamed⟩ := Option.ne_none_iff_exists'.mp white
      obtain ⟨points, read⟩ := komi_accepted (good_komi_of_all komi)
      simp [requiredText, blackNamed, whiteNamed, handicap, read, handicap_refused bad,
        Except.bind]

theorem record_or_unusable (properties : List Property) :
    (∃ record, ofProperties properties = .ok record) ∨ ∃ cause, Unusable properties cause := by
  by_cases black : text? properties "PB" = none
  · exact .inr ⟨_, .noBlack black⟩
  by_cases white : text? properties "PW" = none
  · exact .inr ⟨_, .noWhite black white⟩
  by_cases komi : ∀ text, text? properties "KM" = some text → IsKomi text
  · by_cases handicap : ∀ text, text? properties "HA" = some text → IsHandicap text
    · have goodHandicap : IsHandicap ((text? properties "HA").getD "") := by
        cases written : text? properties "HA" with
        | none => exact .inl rfl
        | some text => exact handicap text written
      obtain ⟨blackName, blackNamed⟩ := Option.ne_none_iff_exists'.mp black
      obtain ⟨whiteName, whiteNamed⟩ := Option.ne_none_iff_exists'.mp white
      obtain ⟨points, komiRead⟩ := komi_accepted (good_komi_of_all komi)
      obtain ⟨stones, handicapRead⟩ := handicap_accepted goodHandicap
      refine .inl ⟨⟨blackName, whiteName, (text? properties "RE").bind winnerOf, stones, points⟩, ?_⟩
      rw [of_properties_steps]
      simp only [requiredText, blackNamed, whiteNamed, komiRead, handicapRead, Except.bind]
    · obtain ⟨text, written, bad⟩ : ∃ text, text? properties "HA" = some text ∧
          ¬ IsHandicap text := by simpa using handicap
      exact .inr ⟨_, .badHandicap black white komi written bad⟩
  · obtain ⟨text, written, bad⟩ : ∃ text, text? properties "KM" = some text ∧
        ¬ IsKomi text := by simpa using komi
    exact .inr ⟨_, .badKomi black white written bad⟩

/-- The four reasons are the only ones, and the first that holds is given. -/
theorem of_properties_eq_error {properties : List Property} {cause : RecordError} :
    ofProperties properties = .error cause ↔ Unusable properties cause := by
  refine ⟨fun refused => ?_, of_properties_unusable⟩
  rcases record_or_unusable properties with ⟨record, read⟩ | ⟨other, unusable⟩
  · have same := refused.symm.trans read
    simp at same
  · have same := refused.symm.trans (of_properties_unusable unusable)
    exact Except.error.inj same ▸ unusable

theorem read_eq_error {raw : Bytes} {cause : RecordError} :
    read raw = .error cause ↔
      Mistake cause raw ∨ ∃ properties, RootNode raw properties ∧ Unusable properties cause := by
  have stages : read raw = (readRoot raw).bind ofProperties := rfl
  rw [stages]
  cases root : readRoot raw with
  | error first =>
      have mistake := read_root_eq_error.mp root
      simp only [Except.bind, Except.error.injEq]
      constructor
      · intro same
        subst same
        exact .inl mistake
      · intro either
        rcases either with other | ⟨properties, node, _⟩
        · exact Except.error.inj (root.symm.trans (read_root_eq_error.mpr other))
        · have same := root.symm.trans (read_root_eq_ok.mpr node)
          simp at same
  | ok properties =>
      have node := read_root_eq_ok.mp root
      simp only [Except.bind]
      rw [of_properties_eq_error]
      constructor
      · exact fun unusable => .inr ⟨properties, node, unusable⟩
      · intro either
        rcases either with mistake | ⟨others, otherNode, unusable⟩
        · have same := root.symm.trans (read_root_eq_error.mpr mistake)
          simp at same
        · have same := Except.ok.inj (root.symm.trans (read_root_eq_ok.mpr otherNode))
          exact same ▸ unusable

/-- The grammar says of every text whether its syntax is accepted, which properties are read,
which of them count, and with which error it is refused otherwise: the first mistake in the
text, or else the first reason why its properties make no record. -/
theorem reader_follows_grammar (raw : Bytes) :
    (∀ properties, readRoot raw = .ok properties ↔ RootNode raw properties) ∧
    (∀ cause, readRoot raw = .error cause ↔ Mistake cause raw) ∧
    (∀ properties ident value, lookup ident properties = some value ↔
      ∃ property, Counts properties property ∧ property.ident = ident ∧
        property.value = value) ∧
    (∀ cause, read raw = .error cause ↔
      Mistake cause raw ∨ ∃ properties, RootNode raw properties ∧ Unusable properties cause) :=
  ⟨fun _ => read_root_eq_ok, fun _ => read_root_eq_error, fun _ _ _ => lookup_eq_some,
    fun _ => read_eq_error⟩

end KifuRatings.GameRecord
