import KifuRatings.Proofs.GameRecord.Grammar
import Mathlib.Data.List.TakeWhile

/-!
# Reading values

The reader gives the values that the grammar denotes. Each reading function has one lemma that
runs it on written text with anything behind it, and one that splits any text where the
function would stop. Together they settle every text.
-/

namespace KifuRatings.Property

/-! ## Values -/

/-- What follows a value that is read in part: nothing that a line break at the end of the
value would take in. -/
def NoBreak (text : Bytes) : Prop :=
  ∀ byte ∈ text.head?, byte ≠ lineFeed ∧ byte ≠ carriageReturn

theorem break_partner_eq_none {byte : UInt8} :
    breakPartner byte = none ↔ byte ≠ lineFeed ∧ byte ≠ carriageReturn := by
  unfold breakPartner
  split
  · simp [*]
  · split <;> simp [*]

/-- A line break is a byte, alone or with its partner; alone if its partner does not follow. -/
theorem line_break_cases {lineBreak text : Bytes} (isBreak : lineBreak ∈ lineBreaks)
    (longest : ∀ longer ∈ lineBreaks, longer <+: lineBreak ++ text →
      longer.length ≤ lineBreak.length) :
    ∃ byte partner, breakPartner byte = some partner ∧
      (lineBreak = [byte, partner] ∨ lineBreak = [byte] ∧ text.head? ≠ some partner) := by
  have alone : ∀ byte partner, [byte, partner] ∈ lineBreaks → lineBreak = [byte] →
      text.head? ≠ some partner := by
    intro byte partner pair single follows
    cases text with
    | nil => simp at follows
    | cons head tail =>
        have same : head = partner := by simpa using follows
        have bound := longest [byte, partner] pair (by rw [single, same]; exact ⟨tail, rfl⟩)
        rw [single] at bound
        simp at bound
  simp only [lineBreaks, List.mem_cons, List.not_mem_nil, or_false] at isBreak
  rcases isBreak with single | single | pair | pair
  · exact ⟨lineFeed, carriageReturn, rfl, .inr ⟨single, alone _ _ (by decide) single⟩⟩
  · exact ⟨carriageReturn, lineFeed, rfl, .inr ⟨single, alone _ _ (by decide) single⟩⟩
  · exact ⟨lineFeed, carriageReturn, rfl, .inl pair⟩
  · exact ⟨carriageReturn, lineFeed, rfl, .inl pair⟩

def prepend (value : Bytes) (read : Option (Bytes × Bytes)) : Option (Bytes × Bytes) :=
  read.map fun (later, rest) => (value ++ later, rest)

theorem prepend_nil (read : Option (Bytes × Bytes)) : prepend [] read = read := by
  cases read <;> rfl

theorem keep_prepend (byte : UInt8) (value : Bytes) (read : Option (Bytes × Bytes)) :
    keep byte (prepend value read) = prepend (byte :: value) read := by
  cases read <;> rfl

theorem read_value_plain {byte : UInt8} (unclosed : byte ≠ closeBracket)
    (unescaped : byte ≠ backslash) (rest : Bytes) :
    readValue (byte :: rest) = keep byte (readValue rest) := by
  rw [readValue.eq_def]
  simp only [if_neg unclosed, if_neg unescaped]

theorem read_value_escaped {byte : UInt8} (notFeed : byte ≠ lineFeed)
    (notReturn : byte ≠ carriageReturn) (rest : Bytes) :
    readValue (backslash :: byte :: rest) = keep byte (readValue rest) := by
  rw [readValue, if_neg (by decide), if_pos rfl]
  simp only [break_partner_eq_none.mpr ⟨notFeed, notReturn⟩]

theorem read_value_pair {byte partner : UInt8} (paired : breakPartner byte = some partner)
    (rest : Bytes) : readValue (backslash :: byte :: partner :: rest) = readValue rest := by
  rw [readValue, if_neg (by decide), if_pos rfl]
  simp only [paired, if_true]

theorem read_value_break {byte partner : UInt8} (paired : breakPartner byte = some partner)
    {rest : Bytes} (alone : rest.head? ≠ some partner) :
    readValue (backslash :: byte :: rest) = readValue rest := by
  rw [readValue, if_neg (by decide), if_pos rfl]
  simp only [paired]
  cases rest with
  | nil => rfl
  | cons next rest =>
      have different : next ≠ partner := by simpa using alone
      simp only [if_neg different]

theorem break_partner_is_break {byte partner : UInt8} (paired : breakPartner byte = some partner) :
    (byte = lineFeed ∧ partner = carriageReturn) ∨ (byte = carriageReturn ∧ partner = lineFeed) := by
  unfold breakPartner at paired
  split at paired
  · exact .inl ⟨‹_›, (Option.some.inj paired).symm⟩
  · split at paired
    · exact .inr ⟨‹_›, (Option.some.inj paired).symm⟩
    · simp at paired

/-- Written text is read to its end, and what follows is read as if it stood alone. -/
theorem read_value_append {text value : Bytes} (written : Written text value) {rest : Bytes}
    (boundary : NoBreak rest) :
    readValue (text ++ rest) = prepend value (readValue rest) := by
  induction written with
  | nil => exact (prepend_nil _).symm
  | plain unclosed unescaped _ induction =>
      rw [List.cons_append, read_value_plain unclosed unescaped, induction, keep_prepend]
  | escaped notFeed notReturn _ induction =>
      rw [List.cons_append, List.cons_append, read_value_escaped notFeed notReturn, induction,
        keep_prepend]
  | @softBreak lineBreak text value isBreak longest _ induction =>
      rw [← induction]
      obtain ⟨byte, partner, paired, pair | ⟨single, alone⟩⟩ := line_break_cases isBreak longest
      · rw [pair]
        exact read_value_pair paired (text ++ rest)
      · rw [single]
        apply read_value_break paired
        -- Behind a break at the end of the text comes what follows the text.
        cases text with
        | cons head tail => exact alone
        | nil =>
            intro follows
            have notBreak := boundary partner follows
            rcases break_partner_is_break paired with ⟨_, same⟩ | ⟨_, same⟩
            · exact notBreak.2 same
            · exact notBreak.1 same

theorem read_value_written {text value : Bytes} (written : Written text value) (rest : Bytes) :
    readValue (text ++ closeBracket :: rest) = some (value, rest) := by
  rw [read_value_append written (by simp [NoBreak]; decide), readValue.eq_def]
  simp [prepend]

theorem read_value_unfinished {text : Bytes} (unfinished : Unfinished text) :
    readValue text = none := by
  obtain ⟨written, value, isWritten, same | same⟩ := unfinished
  · have atEnd : NoBreak [] := by simp [NoBreak]
    have read := read_value_append isWritten atEnd
    rw [List.append_nil] at read
    rw [same, read]
    rfl
  · rw [same, read_value_append isWritten (by simp [NoBreak]; decide)]
    rfl

theorem soft_break_alone {byte partner : UInt8} (paired : breakPartner byte = some partner)
    {text value : Bytes} (alone : text.head? ≠ some partner) (written : Written text value) :
    Written (backslash :: byte :: text) value := by
  have isBreak : [byte] ∈ lineBreaks := by
    rcases break_partner_is_break paired with ⟨rfl, _⟩ | ⟨rfl, _⟩ <;> decide
  refine Written.softBreak isBreak ?_ written
  intro longer member isPrefix
  have longestAtEnd : ∀ other ∈ lineBreaks, other <+: longer ++ [] →
      other.length ≤ longer.length := by
    intro other _ otherPrefix
    simpa using otherPrefix.length_le
  obtain ⟨head, tail, headPaired, same | ⟨same, _⟩⟩ := line_break_cases member longestAtEnd
  · rw [same, List.singleton_append, List.cons_prefix_cons] at isPrefix
    obtain ⟨rfl, tailPrefix⟩ := isPrefix
    have follows : text.head? = some tail := by
      obtain ⟨rest, whole⟩ := tailPrefix
      rw [← whole]
      rfl
    have partners : tail = partner := Option.some.inj (headPaired.symm.trans paired)
    exact absurd (partners ▸ follows) alone
  · rw [same]
    exact Nat.le_refl 1

theorem soft_break_pair {byte partner : UInt8} (paired : breakPartner byte = some partner)
    {text value : Bytes} (written : Written text value) :
    Written (backslash :: byte :: partner :: text) value := by
  have isBreak : [byte, partner] ∈ lineBreaks := by
    rcases break_partner_is_break paired with ⟨rfl, rfl⟩ | ⟨rfl, rfl⟩ <;> decide
  refine Written.softBreak isBreak ?_ written
  intro longer member _
  have short : ∀ lineBreak ∈ lineBreaks, lineBreak.length ≤ 2 := by decide
  exact short longer member

/-- A text either has a value with its closing bracket in front or ends inside a value. -/
def Splits (bytes : Bytes) : Prop :=
  (∃ text value rest, Written text value ∧ bytes = text ++ closeBracket :: rest) ∨ Unfinished bytes

/-- Whatever is put in front of a text's value, if written text stays written by it. -/
theorem splits_behind (front : Bytes) {bytes : Bytes} (split : Splits bytes)
    (extend : ∀ text value, Written text value → text.head? = bytes.head? ∨ text = [] →
      ∃ value, Written (front ++ text) value) : Splits (front ++ bytes) := by
  rcases split with ⟨text, value, rest, written, same⟩ | ⟨text, value, written, same⟩
  · obtain ⟨longer, writtenLonger⟩ := extend text value written (by cases text <;> simp [same])
    exact .inl ⟨front ++ text, longer, rest, writtenLonger, by rw [same, List.append_assoc]⟩
  · obtain ⟨longer, writtenLonger⟩ := extend text value written (by
      rcases same with same | same <;> cases text <;> simp [same])
    refine .inr ⟨front ++ text, longer, writtenLonger, ?_⟩
    rcases same with same | same
    · exact .inl (by rw [same])
    · exact .inr (by rw [same, List.append_assoc])

theorem every_text_splits (bytes : Bytes) : Splits bytes := by
  fun_induction readValue bytes with
  | case1 => exact .inr ⟨[], [], .nil, .inl rfl⟩
  | case2 rest => exact .inl ⟨[], [], rest, .nil, rfl⟩
  | case3 => exact .inr ⟨[], [], .nil, .inr rfl⟩
  | case4 escaped rest unpaired _ induction =>
      obtain ⟨notFeed, notReturn⟩ := break_partner_eq_none.mp unpaired
      exact splits_behind [backslash, escaped] induction
        fun text value written _ => ⟨_, .escaped notFeed notReturn written⟩
  | case5 byte partner paired =>
      exact .inr ⟨_, _, soft_break_alone paired (by simp) .nil, .inl rfl⟩
  | case6 byte partner rest _ paired induction =>
      exact splits_behind [backslash, byte, partner] induction
        fun text value written _ => ⟨value, soft_break_pair paired written⟩
  | case7 byte partner paired next rest different _ induction =>
      apply splits_behind [backslash, byte] induction
      intro text value written sameHead
      refine ⟨value, soft_break_alone paired ?_ written⟩
      change text.head? ≠ some partner
      rcases sameHead with sameHead | empty
      · rw [sameHead]
        exact fun follows => different (Option.some.inj follows)
      · simp [empty]
  | case8 byte rest unclosed unescaped induction =>
      exact splits_behind [byte] induction
        fun text value written _ => ⟨_, .plain unclosed unescaped written⟩

/-! ## Blanks -/

theorem skip_blank_append {blanks : Bytes} (blank : Blank blanks) (text : Bytes) :
    skipBlank (blanks ++ text) = skipBlank text :=
  List.dropWhile_append_of_pos blank

theorem skip_blank_of_head {text : Bytes}
    (start : ∀ byte ∈ text.head?, isBlankByte byte = false) : skipBlank text = text := by
  cases text with
  | nil => rfl
  | cons byte rest =>
      rw [skipBlank, List.dropWhile_cons_of_neg]
      simp [start byte rfl]

theorem blanks_before (text : Bytes) :
    ∃ blanks, Blank blanks ∧ text = blanks ++ skipBlank text := by
  refine ⟨text.takeWhile isBlankByte, ?_, List.takeWhile_append_dropWhile.symm⟩
  intro byte member
  exact List.all_eq_true.mp List.all_takeWhile byte member

theorem not_blank_behind_blanks (text : Bytes) :
    ∀ byte ∈ (skipBlank text).head?, isBlankByte byte = false := by
  intro byte head
  have first := List.head?_dropWhile_not isBlankByte text
  rw [← skipBlank] at first
  rw [Option.mem_def.mp head] at first
  simpa using first

/-! ## The values of a property -/

theorem read_values_step (ident : String) (bytes : Bytes) :
    readValues ident bytes =
      match skipBlank bytes with
      | [] => .ok ([], [])
      | byte :: inside =>
          if byte = openBracket then
            match readValue inside with
            | none => .error (.unterminatedValue ident)
            | some (value, rest) =>
                (readValues ident rest).map fun (values, rest) => (value :: values, rest)
          else .ok ([], byte :: inside) := by
  rw [readValues.eq_def]
  split
  · rename_i ended
    rw [ended]
  · rename_i started
    rw [started]
    simp only []
    split
    · split
      · rename_i unclosed
        rw [unclosed]
      · rename_i closed
        rw [closed]
    · rfl

theorem read_values_skip (ident : String) {blanks : Bytes} (blank : Blank blanks) (text : Bytes) :
    readValues ident (blanks ++ text) = readValues ident text := by
  rw [read_values_step, read_values_step ident text, skip_blank_append blank]

theorem read_values_stop (ident : String) {rest : Bytes} (stop : NoValue rest) :
    readValues ident rest = .ok ([], rest) := by
  rw [read_values_step, skip_blank_of_head fun byte head => (stop byte head).1]
  cases rest with
  | nil => rfl
  | cons byte inside =>
      have notOpened : byte ≠ openBracket := (stop byte rfl).2
      simp only [if_neg notOpened]

theorem read_values_open (ident : String) (inside : Bytes) :
    readValues ident (openBracket :: inside) =
      match readValue inside with
      | none => .error (.unterminatedValue ident)
      | some (value, rest) =>
          (readValues ident rest).map fun (values, rest) => (value :: values, rest) := by
  have start : skipBlank (openBracket :: inside) = openBracket :: inside :=
    skip_blank_of_head (by simp; decide)
  rw [read_values_step, start]
  simp only [if_true]

theorem read_values_append (ident : String) {text : Bytes} {values : List Bytes}
    (written : Values text values) (rest : Bytes) :
    readValues ident (text ++ rest) =
      (readValues ident rest).map fun (later, after) => (values ++ later, after) := by
  induction written with
  | nil =>
      rw [List.nil_append]
      cases readValues ident rest <;> rfl
  | @cons text value blanks more values first gap _ induction =>
      have regroup : openBracket :: (text ++ closeBracket :: (blanks ++ more)) ++ rest =
          openBracket :: (text ++ closeBracket :: (blanks ++ (more ++ rest))) := by
        simp [List.append_assoc]
      rw [regroup, read_values_open, read_value_written first]
      simp only []
      rw [read_values_skip ident gap, induction]
      cases readValues ident rest <;> rfl

/-- What the loop over values makes of a text: values up to something else, or values up to
one that the text ends in. -/
inductive ValuesSplit : Bytes → Prop where
  | stopped {blanks text rest : Bytes} {values : List Bytes} (gap : Blank blanks)
      (written : Values text values) (stop : NoValue rest) :
      ValuesSplit (blanks ++ (text ++ rest))
  | unfinished {blanks text inside : Bytes} {values : List Bytes} (gap : Blank blanks)
      (written : Values text values) (unfinished : Unfinished inside) :
      ValuesSplit (blanks ++ (text ++ openBracket :: inside))

theorem every_text_splits_at_values (bytes : Bytes) : ValuesSplit bytes := by
  obtain ⟨blanks, gap, same⟩ := blanks_before bytes
  have notBlank := not_blank_behind_blanks bytes
  cases started : skipBlank bytes with
  | nil =>
      rw [same, started]
      exact .stopped gap .nil (by simp [NoValue] : NoValue [])
  | cons byte inside =>
      by_cases opened : byte = openBracket
      · rcases every_text_splits inside with ⟨text, value, after, written, insideSame⟩ | unfinished
        · have shorter : after.length < bytes.length := by
            rw [same, started, insideSame]
            simp
            omega
          rw [same, started, opened, insideSame]
          cases every_text_splits_at_values after with
          | stopped laterGap laterWritten stop =>
              have whole := Values.cons written laterGap laterWritten
              simpa [List.append_assoc] using ValuesSplit.stopped gap whole stop
          | unfinished laterGap laterWritten open_ =>
              have whole := Values.cons written laterGap laterWritten
              simpa [List.append_assoc] using ValuesSplit.unfinished gap whole open_
        · rw [same, started, opened]
          exact .unfinished gap .nil unfinished
      · rw [same, started]
        refine .stopped gap .nil (?_ : NoValue (byte :: inside))
        intro first head
        have isFirst : first = byte := by simpa using head.symm
        rw [isFirst]
        exact ⟨notBlank byte (by rw [started]; rfl), opened⟩
termination_by bytes.length

end KifuRatings.Property
