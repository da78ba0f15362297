import KifuRatings.Proofs.GameRecord.Values

/-!
# Reading properties

Properties are read one by one up to the end of their node or to the first mistake. Any text
splits into properties and one of these, so no mistake is reported in place of an earlier one.
-/

namespace KifuRatings.Property

theorem capital_is_plain {byte : UInt8} (capital : isCapital byte = true) :
    isBlankByte byte = false ∧ endsNode byte = false ∧ byte ≠ openBracket := by
  have excluded : ∀ other, isCapital other = false → byte ≠ other := by
    intro other small same
    rw [same, small] at capital
    simp at capital
  refine ⟨?_, ?_, excluded openBracket (by decide)⟩
  · simp only [isBlankByte, Bool.or_eq_false_iff, beq_eq_false_iff_ne]
    exact ⟨⟨⟨⟨excluded _ (by decide), excluded _ (by decide)⟩, excluded _ (by decide)⟩,
      excluded _ (by decide)⟩, excluded _ (by decide)⟩
  · simp only [endsNode, Bool.or_eq_false_iff, beq_eq_false_iff_ne]
    exact ⟨⟨excluded _ (by decide), excluded _ (by decide)⟩, excluded _ (by decide)⟩

theorem end_is_plain {byte : UInt8} (ends : endsNode byte = true) :
    isBlankByte byte = false ∧ byte ≠ openBracket := by
  simp only [endsNode, Bool.or_eq_true, beq_iff_eq] at ends
  rcases ends with (rfl | rfl) | rfl <;> decide

theorem read_all_step (bytes : Bytes) :
    readAll bytes =
      match skipBlank bytes with
      | [] => .ok []
      | byte :: rest =>
          if endsNode byte then .ok []
          else if isCapital byte then
            let ident := ofCapitals (byte :: rest.takeWhile isCapital)
            match readValues ident (rest.dropWhile isCapital) with
            | .error cause => .error cause
            | .ok ([], _) => .error (.missingValue ident)
            | .ok (value :: further, after) => (readAll after).map (⟨ident, value, further⟩ :: ·)
          else .error (.invalidIdent byte) := by
  rw [readAll.eq_def]
  split
  · rename_i ended
    rw [ended]
  · rename_i started
    rw [started]
    simp only []
    split
    · rfl
    · split
      · split
        · rename_i failed
          rw [failed]
        · rename_i read
          rw [read]
        · rename_i read
          rw [read]
      · rfl

theorem read_all_skip {blanks : Bytes} (blank : Blank blanks) (text : Bytes) :
    readAll (blanks ++ text) = readAll text := by
  rw [read_all_step, read_all_step text, skip_blank_append blank]

theorem read_all_ended {rest : Bytes} (ended : Ended rest) : readAll rest = .ok [] := by
  rw [read_all_step, skip_blank_of_head fun byte head => (end_is_plain (ended byte head)).1]
  cases rest with
  | nil => rfl
  | cons byte rest =>
      have ends : endsNode byte = true := ended byte rfl
      simp only [ends, if_true]

theorem read_all_letters {letters : Bytes} (ident : Letters letters) {rest : Bytes}
    (noLetter : ∀ byte ∈ rest.head?, isCapital byte = false) :
    readAll (letters ++ rest) =
      match readValues (ofCapitals letters) rest with
      | .error cause => .error cause
      | .ok ([], _) => .error (.missingValue (ofCapitals letters))
      | .ok (value :: further, after) =>
          (readAll after).map (⟨ofCapitals letters, value, further⟩ :: ·) := by
  obtain ⟨notEmpty, capitals⟩ := ident
  obtain ⟨byte, others, rfl⟩ := List.exists_cons_of_ne_nil notEmpty
  have capital : isCapital byte = true := capitals byte (by simp)
  have otherCapitals : ∀ other ∈ others, isCapital other = true :=
    fun other member => capitals other (by simp [member])
  obtain ⟨notBlank, inNode, _⟩ := capital_is_plain capital
  have stops : rest.takeWhile isCapital = [] ∧ rest.dropWhile isCapital = rest := by
    cases rest with
    | nil => exact ⟨rfl, rfl⟩
    | cons next rest =>
        have notCapital : isCapital next = false := noLetter next rfl
        simp [notCapital]
  have taken : (others ++ rest).takeWhile isCapital = others := by
    rw [List.takeWhile_append_of_pos otherCapitals, stops.1, List.append_nil]
  have dropped : (others ++ rest).dropWhile isCapital = rest := by
    rw [List.dropWhile_append_of_pos otherCapitals, stops.2]
  rw [read_all_step, List.cons_append, skip_blank_of_head (by simpa using notBlank)]
  simp only [inNode, capital, taken, dropped, if_true, Bool.false_eq_true, if_false]

theorem no_letter_behind_blanks {blanks : Bytes} (gap : Blank blanks) {rest : Bytes}
    (noLetter : blanks = [] → ∀ byte ∈ rest.head?, isCapital byte = false) :
    ∀ byte ∈ (blanks ++ rest).head?, isCapital byte = false := by
  cases blanks with
  | nil => exact noLetter rfl
  | cons blank blanks =>
      intro byte head
      have same : blank = byte := by simpa using head
      have isBlank : isBlankByte byte = true := same ▸ gap blank (by simp)
      by_contra capital
      have plain := (capital_is_plain (by simpa using capital)).1
      rw [isBlank] at plain
      simp at plain

theorem values_start {text : Bytes} {value : Bytes} {further : List Bytes}
    (written : Values text (value :: further)) : text.head? = some openBracket := by
  cases written with
  | cons first gap others => rfl

theorem read_all_property {text : Bytes} {property : Property} (written : IsProperty text property)
    {rest : Bytes} (stop : NoValue rest) :
    readAll (text ++ rest) = (readAll rest).map (property :: ·) := by
  cases written with
  | @mk letters blanks text value further ident gap values =>
      have noLetter : ∀ byte ∈ (blanks ++ (text ++ rest)).head?, isCapital byte = false := by
        refine no_letter_behind_blanks gap fun _ byte head => ?_
        rw [List.head?_append, values_start values] at head
        have same : openBracket = byte := by simpa using head
        rw [← same]
        rfl
      have read : readValues (ofCapitals letters) (blanks ++ (text ++ rest)) =
          .ok (value :: further, rest) := by
        rw [read_values_skip _ gap, read_values_append _ values, read_values_stop _ stop]
        simp [Except.map]
      rw [List.append_assoc, List.append_assoc, read_all_letters ident noLetter, read]

theorem read_all_mistake {cause : RecordError} {rest : Bytes} (failed : NotAProperty cause rest) :
    readAll rest = .error cause := by
  cases failed with
  | invalidIdent notBlank inNode notCapital =>
      rw [read_all_step, skip_blank_of_head (by simpa using notBlank)]
      simp only [inNode, notCapital, Bool.false_eq_true, if_false]
  | missingValue ident gap noLetter noValue =>
      rw [read_all_letters ident (no_letter_behind_blanks gap noLetter), read_values_skip _ gap,
        read_values_stop _ noValue]
  | @unterminatedValue letters blanks text inside values ident gap read unfinished =>
      have noLetter : ∀ byte ∈ (blanks ++ (text ++ openBracket :: inside)).head?,
          isCapital byte = false := by
        refine no_letter_behind_blanks gap fun _ byte head => ?_
        have same : openBracket = byte := by
          cases read with
          | nil => simpa using head
          | cons first gap others => simpa using head
        rw [← same]
        rfl
      rw [read_all_letters ident noLetter, read_values_skip _ gap, read_values_append _ read,
        read_values_open, read_value_unfinished unfinished]
      rfl

theorem property_start {text : Bytes} {property : Property} (written : IsProperty text property)
    (rest : Bytes) : NoValue (text ++ rest) := by
  cases written with
  | @mk letters blanks text value further ident gap values =>
      obtain ⟨byte, others, rfl⟩ := List.exists_cons_of_ne_nil ident.1
      have plain := capital_is_plain (ident.2 byte (by simp))
      intro first head
      have same : byte = first := by simpa using head
      exact same ▸ ⟨plain.1, plain.2.2⟩

theorem read_all_properties {text : Bytes} {properties : List Property}
    (written : Properties text properties) {rest : Bytes}
    (stop : properties ≠ [] → NoValue rest) :
    readAll (text ++ rest) = (readAll rest).map (properties ++ ·) := by
  induction written with
  | nil =>
      rw [List.nil_append]
      cases readAll rest <;> rfl
  | @cons text more property properties first others induction =>
      have stopNext : NoValue (more ++ rest) := by
        cases others with
        | nil => exact stop (by simp)
        | cons next later =>
            rw [List.append_assoc]
            exact property_start next _
      rw [List.append_assoc, read_all_property first stopNext, induction fun _ => stop (by simp)]
      cases readAll rest <;> rfl

theorem no_value_of_ended {rest : Bytes} (ended : Ended rest) : NoValue rest :=
  fun byte head => end_is_plain (ended byte head)

theorem no_value_of_mistake {cause : RecordError} {rest : Bytes}
    (failed : NotAProperty cause rest) (noValue : rest.head? ≠ some openBracket) :
    NoValue rest := by
  intro byte head
  refine ⟨?_, fun opened => noValue (opened ▸ head)⟩
  have lettersPlain : ∀ letters more : Bytes, Letters letters →
      byte ∈ (letters ++ more).head? → isBlankByte byte = false := by
    intro letters more ident start
    obtain ⟨first, others, rfl⟩ := List.exists_cons_of_ne_nil ident.1
    have same : first = byte := by simpa using start
    exact same ▸ (capital_is_plain (ident.2 first (by simp))).1
  cases failed with
  | invalidIdent notBlank inNode notCapital =>
      have same := Option.some.inj head
      exact same ▸ notBlank
  | missingValue ident gap noLetter noValue => exact lettersPlain _ _ ident head
  | unterminatedValue ident gap read unfinished => exact lettersPlain _ _ ident head

/-- What the loop over properties makes of a text: properties up to the end of the node, or
properties up to a mistake. -/
inductive NodeSplit : Bytes → Prop where
  | ended {text rest : Bytes} {properties : List Property} (read : Properties text properties)
      (ended : Ended rest) : NodeSplit (text ++ rest)
  | failed {text rest : Bytes} {properties : List Property} {cause : RecordError}
      (read : Properties text properties) (failed : NotAProperty cause rest)
      (noValue : properties ≠ [] → rest.head? ≠ some openBracket) : NodeSplit (text ++ rest)

theorem node_split_behind {text rest : Bytes} {property : Property}
    (first : IsProperty text property) (stop : NoValue rest) (split : NodeSplit rest) :
    NodeSplit (text ++ rest) := by
  cases split with
  | ended read ended =>
      rw [← List.append_assoc]
      exact .ended (.cons first read) ended
  | @failed more rest properties cause read failed noValue =>
      rw [← List.append_assoc]
      refine .failed (.cons first read) failed fun _ opened => ?_
      cases read with
      | nil => exact (stop openBracket opened).2 rfl
      | cons next later => exact noValue (by simp) opened

theorem capitals_before {byte : UInt8} (capital : isCapital byte = true) (rest : Bytes) :
    ∃ letters more, Letters letters ∧ byte :: rest = letters ++ more ∧
      more.length ≤ rest.length ∧ ∀ byte ∈ more.head?, isCapital byte = false := by
  refine ⟨byte :: rest.takeWhile isCapital, rest.dropWhile isCapital, ⟨by simp, ?_⟩, ?_,
    List.length_dropWhile_le isCapital rest, ?_⟩
  · intro other member
    rcases List.mem_cons.mp member with rfl | member
    · exact capital
    · exact List.all_eq_true.mp List.all_takeWhile other member
  · rw [List.cons_append, List.takeWhile_append_dropWhile]
  · intro next head
    have first := List.head?_dropWhile_not isCapital rest
    rw [Option.mem_def.mp head] at first
    simpa using first

theorem node_split_of_ended {rest : Bytes} (ended : Ended rest) : NodeSplit rest :=
  .ended .nil ended

theorem node_split_of_mistake {cause : RecordError} {rest : Bytes}
    (failed : NotAProperty cause rest) : NodeSplit rest :=
  .failed .nil failed (by simp)

theorem every_text_splits_at_node (bytes : Bytes)
    (start : ∀ byte ∈ bytes.head?, isBlankByte byte = false) : NodeSplit bytes := by
  match bytes, start with
  | [], _ => exact node_split_of_ended (by simp [Ended])
  | byte :: rest, start =>
      by_cases ends : endsNode byte = true
      · exact node_split_of_ended (by simpa [Ended] using ends)
      by_cases capital : isCapital byte = true
      · obtain ⟨letters, more, ident, same, short, noLetter⟩ := capitals_before capital rest
        rw [same]
        cases every_text_splits_at_values more with
        | @stopped blanks text after values gap written stop =>
            cases written with
            | nil =>
                rw [List.nil_append] at noLetter ⊢
                refine node_split_of_mistake (.missingValue ident gap ?_ stop)
                intro empty
                simpa [empty] using noLetter
            | cons first between others =>
                have shorter : after.length < (byte :: rest).length := by
                  simp only [List.length_append, List.length_cons] at short ⊢
                  omega
                have later := every_text_splits_at_node after fun byte head => (stop byte head).1
                have whole := node_split_behind
                  (.mk ident gap (.cons first between others)) stop later
                simpa only [List.append_assoc] using whole
        | unfinished gap written unfinished =>
            exact node_split_of_mistake (.unterminatedValue ident gap written unfinished)
      · refine node_split_of_mistake (.invalidIdent (start byte rfl) ?_ ?_)
        · simpa using ends
        · simpa using capital
termination_by bytes.length
decreasing_by exact shorter

end KifuRatings.Property
