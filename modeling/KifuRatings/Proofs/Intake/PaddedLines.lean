import KifuRatings.Proofs.GameRecord.Padding
import KifuRatings.Proofs.Intake.Lines

/-!
# Lines with blanks around them

A file of lines is told by its lines, and a line by whether it is blank and what is read from it.
Blanks around a line change neither, nor do they change which line it is. So padded lines count like
the lines themselves and are complained of with the same words, and it makes no difference whether
lines end with a line feed alone or with a carriage return in front of it.
-/

namespace KifuRatings.Scorebook

open Property

variable {ε : Type}

theorem take_lines_congr {reader : OutcomeReader ε} {content other : Bytes}
    (alike : List.Forall₂ (fun line otherLine => isBlankLine otherLine = isBlankLine line ∧
      reader.read otherLine = reader.read line) (lines content) (lines other))
    (path : Path) (progress : Progress) :
    takeLines reader path other progress = takeLines reader path content progress := by
  unfold takeLines
  generalize lines content = parts at alike ⊢
  generalize lines other = otherParts at alike ⊢
  generalize 0 = index
  induction alike generalizing progress index with
  | nil => rfl
  | cons same _ induction =>
      rw [List.zipIdx_cons, List.zipIdx_cons, List.foldl_cons, List.foldl_cons, induction]
      simp only [takeRecord, enter, same.1, same.2]

/-- A line with blanks around it that are no line feeds. -/
inductive Padded (line : Bytes) : Bytes → Prop where
  | mk {before after : Bytes} (blankBefore : Blank before) (blankAfter : Blank after)
      (oneLineBefore : lineFeed ∉ before) (oneLineAfter : lineFeed ∉ after) :
      Padded line (before ++ (line ++ after))

theorem padded_one_line {line padded : Bytes} (pads : Padded line padded)
    (oneLine : lineFeed ∉ line) : lineFeed ∉ padded := by
  cases pads with
  | mk _ _ oneLineBefore oneLineAfter => simp [oneLine, oneLineBefore, oneLineAfter]

theorem blank_of_padded {line padded : Bytes} (pads : Padded line padded) :
    isBlankLine padded = isBlankLine line := by
  cases pads with
  | mk blankBefore blankAfter _ _ =>
      have all : ∀ {blanks : Bytes}, Blank blanks → blanks.all isBlankByte = true :=
        fun blank => List.all_eq_true.mpr blank
      simp [isBlankLine, List.all_append, all blankBefore, all blankAfter]

theorem read_of_padded {line padded : Bytes} (pads : Padded line padded) :
    OutcomeReader.gameRecord.read padded = OutcomeReader.gameRecord.read line := by
  cases pads with
  | mk blankBefore blankAfter _ _ =>
      change Except.bind (GameRecord.read _) _ = Except.bind (GameRecord.read _) _
      rw [GameRecord.read_padded blankBefore blankAfter]

theorem lines_of_joined {parts : List Bytes} (some : parts ≠ [])
    (oneLine : ∀ part ∈ parts, lineFeed ∉ part) : lines ([lineFeed].intercalate parts) = parts :=
  List.splitOn_intercalate lineFeed oneLine some

theorem lines_of_padded {content : Bytes} {padded : List Bytes}
    (pads : List.Forall₂ Padded (lines content) padded) :
    lines ([lineFeed].intercalate padded) = padded := by
  apply lines_of_joined
  · intro none
    subst none
    exact List.splitOnP_ne_nil _ content (List.forall₂_nil_right_iff.mp pads)
  · have oneLine : ∀ line ∈ lines content, lineFeed ∉ line := fun line => no_feed_in_line
    revert oneLine pads
    generalize lines content = parts
    intro pads oneLine
    induction pads with
    | nil => simp
    | cons first _ induction =>
        rw [List.forall_mem_cons] at oneLine ⊢
        exact ⟨padded_one_line first oneLine.1, induction oneLine.2⟩

theorem take_padded_lines {content : Bytes} {padded : List Bytes}
    (pads : List.Forall₂ Padded (lines content) padded) (path : Path) (progress : Progress) :
    takeLines .gameRecord path ([lineFeed].intercalate padded) progress =
      takeLines .gameRecord path content progress := by
  apply take_lines_congr
  rw [lines_of_padded pads]
  exact pads.imp fun line padded pads => ⟨blank_of_padded pads, read_of_padded pads⟩

/-! ## Carriage returns -/

def withReturns (content : Bytes) : Bytes :=
  content.flatMap fun byte => if byte = lineFeed then [carriageReturn, lineFeed] else [byte]

@[simp]
theorem with_returns_append (first second : Bytes) :
    withReturns (first ++ second) = withReturns first ++ withReturns second :=
  List.flatMap_append

theorem with_returns_of_line {line : Bytes} (oneLine : lineFeed ∉ line) :
    withReturns line = line := by
  induction line with
  | nil => rfl
  | cons byte rest induction =>
      rw [List.mem_cons, not_or] at oneLine
      rw [withReturns, List.flatMap_cons, if_neg (Ne.symm oneLine.1), ← withReturns,
        induction oneLine.2]
      rfl

/-- A carriage return in front of a line feed is a blank behind the line. -/
theorem with_returns_pads {parts : List Bytes} (oneLine : ∀ part ∈ parts, lineFeed ∉ part) :
    ∃ padded, List.Forall₂ Padded parts padded ∧
      withReturns ([lineFeed].intercalate parts) = [lineFeed].intercalate padded := by
  induction parts with
  | nil => exact ⟨[], .nil, rfl⟩
  | cons line parts induction =>
      rw [List.forall_mem_cons] at oneLine
      have noBlank : Blank [] := by simp [Blank]
      have aReturn : Blank [carriageReturn] := by simp [Blank]; decide
      have unchanged : Padded line _ := .mk noBlank noBlank (by simp) (by simp)
      have returned : Padded line _ := .mk noBlank aReturn (by simp) (by simp; decide)
      rw [List.nil_append] at unchanged returned
      cases parts with
      | nil =>
          refine ⟨[line], .cons (by simpa using unchanged) .nil, ?_⟩
          rw [List.intercalate_singleton, with_returns_of_line oneLine.1]
      | cons next parts =>
          obtain ⟨padded, pads, same⟩ := induction oneLine.2
          cases pads with
          | @cons _ first _ others isFirst rest =>
              refine ⟨(line ++ [carriageReturn]) :: first :: others,
                .cons returned (.cons isFirst rest), ?_⟩
              rw [List.intercalate_cons_cons, List.intercalate_cons_cons, with_returns_append,
                with_returns_append, same, with_returns_of_line oneLine.1]
              simp [withReturns]

theorem take_lines_with_returns (content : Bytes) (path : Path) (progress : Progress) :
    takeLines .gameRecord path (withReturns content) progress =
      takeLines .gameRecord path content progress := by
  obtain ⟨padded, pads, same⟩ := with_returns_pads fun _ => @no_feed_in_line content _
  have joined : [lineFeed].intercalate (lines content) = content := lines_joined content
  rw [joined] at same
  rw [same, take_padded_lines pads]

/-- Blanks around a record never matter: the same game is read, or it is refused with the same
words, wherever the text breaks off. So a file of lines comes to the same count and the same
scorebook, with the same events, however its lines are padded; and also if each of them ends with a
carriage return and a line feed. -/
theorem surrounding_blanks_never_matter :
    (∀ before raw after, Blank before → Blank after →
      GameRecord.read (before ++ (raw ++ after)) = GameRecord.read raw) ∧
    (∀ path content padded progress, List.Forall₂ Padded (lines content) padded →
      takeLines .gameRecord path ([lineFeed].intercalate padded) progress =
        takeLines .gameRecord path content progress) ∧
    (∀ path content progress,
      takeLines .gameRecord path (withReturns content) progress =
        takeLines .gameRecord path content progress) := by
  refine ⟨?_, ?_, ?_⟩
  · intro before raw after blankBefore blankAfter
    exact GameRecord.read_padded blankBefore blankAfter raw
  · intro path content padded progress pads
    exact take_padded_lines pads path progress
  · intro path content progress
    exact take_lines_with_returns content path progress

/-- `(;PB[a\` breaks off behind a backslash, which then stands in front of a line feed. As a line
behind an empty one it is malformed with a space behind it and a tab in front of it, too. -/
theorem blank_behind_backslash_never_matters :
    let cut : Bytes := [openParenthesis, semicolon, 0x50, 0x42, openBracket, 0x61, backslash]
    GameRecord.read ([] ++ (cut ++ [lineFeed])) = GameRecord.read cut ∧
    readRoot cut = .error (.unterminatedValue "PB") ∧
    takeLines .gameRecord [] ([0x20, lineFeed, 0x09] ++ cut ++ [0x20]) ⟨empty .standard, .zero, []⟩ =
      takeLines .gameRecord [] (lineFeed :: cut) ⟨empty .standard, .zero, []⟩ := by
  intro cut
  have noBlank : Blank [] := by simp [Blank]
  have aSpace : Blank [0x20] := by simp [Blank]; decide
  have aTab : Blank [0x09] := by simp [Blank]; decide
  have pads : List.Forall₂ Padded (lines (lineFeed :: cut))
      [[0x20], [0x09] ++ (cut ++ [0x20])] := by
    have isLines : lines (lineFeed :: cut) = [[], cut] := by decide
    rw [isLines]
    exact .cons (.mk aSpace noBlank (by decide) (by simp))
      (.cons (.mk aTab aSpace (by decide) (by decide)) .nil)
  have aLineFeed : Blank [lineFeed] := by simp [Blank]; decide
  refine ⟨surrounding_blanks_never_matter.1 [] cut [lineFeed] noBlank aLineFeed, ?_, ?_⟩
  · decide +kernel
  · exact surrounding_blanks_never_matter.2.1 [] (lineFeed :: cut) _ _ pads

end KifuRatings.Scorebook
