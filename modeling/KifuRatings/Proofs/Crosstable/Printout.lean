import KifuRatings.Proofs.Crosstable.Legend
import KifuRatings.Proofs.Crosstable.Scores
import KifuRatings.Proofs.GameRecord.ReadBack
import KifuRatings.Proofs.Rating.Systems

/-!
# What is printed of a table

The legend and the score matrix can be read back. A name stands behind the index column of its line
as it is, unless trimming takes blanks from its end; and the fields of the matrix are its numbers,
with at least two spaces in front of each. So the two texts determine the matrix.
-/

namespace KifuRatings

/-! ## Scores as they are written -/

namespace Decimal

theorem numeral_unique {text : List Char} {number other : ℚ} (numeral : Numeral text number)
    (another : Numeral text other) : other = number := by
  have noPoint : ∀ {digits : List Char}, AllDigits digits → '.' ∉ digits :=
    fun all point => Bool.noConfusion (all '.' point)
  cases numeral with
  | whole all some =>
      cases another with
      | whole => rfl
      | point => exact absurd (by simp) (noPoint all)
  | @point whole places allWhole allPlaces some =>
      generalize same : whole ++ '.' :: places = text at another
      cases another with
      | whole all => exact absurd (by simp [← same]) (noPoint all)
      | @point otherWhole otherPlaces otherAllWhole =>
          have digits : ∀ {digits : List Char} rest, AllDigits digits →
              (digits ++ '.' :: rest).takeWhile isDigit = digits := by
            intro digits rest all
            rw [List.takeWhile_append_of_pos all]
            simp [isDigit]
          have sameWhole : whole = otherWhole := by
            rw [← digits places allWhole, same, digits _ otherAllWhole]
          subst sameWhole
          have samePlaces := List.append_cancel_left same
          cases samePlaces
          rfl

end Decimal

namespace Score

theorem whole_text {score : Score} (even : score.halves % 2 = 0) :
    score.text.toList = Nat.toDigits 10 (score.halves / 2) := by
  rw [text, if_pos even, String.toList_ofList]

theorem half_text {score : Score} (odd : score.halves % 2 ≠ 0) :
    score.text.toList = Nat.toDigits 10 (score.halves / 2) ++ ['.', '5'] := by
  rw [text, if_neg odd, String.toList_append, String.toList_ofList]
  rfl

theorem text_numeral (score : Score) : Decimal.Numeral score.text.toList score.games := by
  have digits := Decimal.all_digits_to_digits (score.halves / 2)
  have some : Nat.toDigits 10 (score.halves / 2) ≠ [] := Nat.toDigits_ne_nil
  have parts := Nat.div_add_mod score.halves 2
  by_cases even : score.halves % 2 = 0
  · have numeral := Decimal.Numeral.whole digits some
    have value : ((score.halves / 2 : ℕ) : ℚ) = score.games := by
      rw [games, eq_div_iff two_ne_zero]
      exact_mod_cast (by omega : score.halves / 2 * 2 = score.halves)
    rw [Decimal.of_digits_to_digits, value] at numeral
    rwa [whole_text even]
  · have five : Decimal.AllDigits ['5'] := by
      intro character member
      rw [List.mem_singleton.mp member]
      rfl
    have numeral := Decimal.Numeral.point digits five some
    have shifted : Decimal.ofDigits (Nat.toDigits 10 (score.halves / 2) ++ ['5']) =
        score.halves / 2 * 10 + 5 := by
      rw [Decimal.ofDigits, List.foldl_append, ← Decimal.ofDigits, Decimal.of_digits_to_digits]
      rfl
    have value : ((score.halves / 2 * 10 + 5 : ℕ) : ℚ) / 10 ^ ['5'].length = score.games := by
      rw [games, div_eq_div_iff (by norm_num) two_ne_zero]
      exact_mod_cast (by simp; omega :
        (score.halves / 2 * 10 + 5) * 2 = score.halves * 10 ^ ['5'].length)
    rw [shifted, value] at numeral
    rwa [half_text even]

theorem games_injective : Function.Injective games := by
  intro left right same
  have halves : (left.halves : ℚ) = right.halves := (div_left_inj' two_ne_zero).mp same
  exact congrArg Score.mk (by exact_mod_cast halves)

theorem text_injective : Function.Injective text := by
  intro left right same
  have numeral := right.text_numeral
  rw [← same] at numeral
  exact games_injective (Decimal.numeral_unique numeral left.text_numeral)

end Score

/-! ## Fields on a line -/

namespace Text

/-- The words of a line are what stands between spaces. -/
def words (line : List Char) : List (List Char) :=
  (line.splitOnP (· == ' ')).filter (· ≠ [])

theorem words_append_space (before after : List Char) :
    words (before ++ ' ' :: after) = words before ++ words after := by
  rw [words, List.splitOnP_append_cons before after (by simp), List.filter_append]
  rfl

theorem words_of_spaces (count : Nat) (line : List Char) :
    words (List.replicate count ' ' ++ line) = words line := by
  induction count with
  | zero => rfl
  | succ count induction =>
      rw [List.replicate_succ, List.cons_append, ← induction]
      exact words_append_space [] _

theorem words_of_field {field : List Char} (noSpace : ' ' ∉ field) :
    words field = if field = [] then [] else [field] := by
  have alone : ∀ character ∈ field, (character == ' ') = false := by
    intro character member
    rw [beq_eq_false_iff_ne]
    exact ne_of_mem_of_not_mem member noSpace
  rw [words, List.splitOnP_eq_singleton alone]
  cases field <;> rfl

/-- Fields one behind the other, with at least two spaces in front of each. -/
inductive Spaced : List (List Char) → List Char → Prop where
  | nil : Spaced [] []
  | cons {field line : List Char} {fields : List (List Char)} {room : Nat} (wide : 2 ≤ room)
      (others : Spaced fields line) :
      Spaced (field :: fields) (List.replicate room ' ' ++ (field ++ line))

/-- Fields without spaces in them are read back, empty ones apart. -/
theorem words_of_spaced {fields : List (List Char)} {line : List Char} (spaced : Spaced fields line)
    (noSpace : ∀ field ∈ fields, ' ' ∉ field) : words line = fields.filter (· ≠ []) := by
  induction spaced with
  | nil => rfl
  | @cons field line fields room wide others induction =>
      rw [List.forall_mem_cons] at noSpace
      have behind : words (field ++ line) = words field ++ words line := by
        cases others with
        | nil => simp [words]
        | @cons next rest _ gap wide _ =>
            obtain ⟨fewer, rfl⟩ : ∃ fewer, gap = fewer + 1 := ⟨gap - 1, by omega⟩
            rw [List.replicate_succ, List.cons_append, words_append_space]
            exact congrArg _ (words_append_space [] _).symm
      rw [words_of_spaces, behind, words_of_field noSpace.1, induction noSpace.2]
      by_cases empty : field = [] <;> simp [empty]

end Text

namespace Layout

open Text

/-! ## The lines of the matrix -/

theorem pad_start_characters (width : Nat) (field : String) :
    (padStart width field).toList =
      List.replicate (width - field.length) ' ' ++ field.toList := by
  rw [padStart, spaces, String.toList_append, String.toList_ofList]

def scoreLine (width : Nat) (fields : List String) : List Char :=
  fields.flatMap fun field => (padStart width field).toList

section Line

variable {width : Nat} {fields : List String} (fits : ∀ field ∈ fields, field.length + gap ≤ width)

include fits

theorem score_line_spaced : Spaced (fields.map String.toList) (scoreLine width fields) := by
  induction fields with
  | nil => exact .nil
  | cons field fields induction =>
      rw [List.forall_mem_cons] at fits
      have wide : 2 ≤ width - field.length := Nat.le_sub_of_add_le' fits.1
      rw [scoreLine, List.flatMap_cons, pad_start_characters, List.append_assoc]
      exact .cons wide (induction fits.2)

theorem length_score_line : (scoreLine width fields).length = fields.length * width := by
  have columns : ∀ field ∈ fields, (padStart width field).toList.length = width := by
    intro field member
    have narrow := fits field member
    rw [pad_start_characters, List.length_append, List.length_replicate, String.length_toList]
    omega
  rw [scoreLine, List.length_flatMap, List.map_congr_left columns, List.map_const',
    List.sum_replicate, smul_eq_mul]

end Line

variable (matrix : ScoreMatrix)

def rowFields (row : Fin matrix.size) : List String :=
  number row :: (List.finRange matrix.size).map fun column => (matrix.cell row column).text

def scoreFields : List (List String) :=
  ("" :: numbers matrix.size) :: (List.finRange matrix.size).map (rowFields matrix)

def scoreWidth : Nat :=
  columnWidth (numbers matrix.size ++
    (matrix.cells.toList.map fun row => row.toList.map Score.text).flatten)

theorem numbers_eq_map (count : Nat) :
    numbers count = (List.finRange count).map fun index : Fin count => number index := by
  rw [numbers, ← List.map_coe_finRange_eq_range, List.map_map]
  rfl

theorem rows_eq_map : (matrix.cells.toList.map fun row => row.toList.map Score.text) =
    (List.finRange matrix.size).map fun row =>
      (List.finRange matrix.size).map fun column => (matrix.cell row column).text := by
  simp only [to_list_eq_map, List.map_map]
  rfl

theorem scores_written :
    (scores matrix).toList =
      finished ((scoreFields matrix).map (scoreLine (scoreWidth matrix))) := by
  have line : ∀ fields : List String,
      (String.join (fields.map (padStart (scoreWidth matrix))) ++ "\n").toList =
        scoreLine (scoreWidth matrix) fields ++ ['\n'] := by
    intro fields
    rw [String.toList_append, String.toList_join, List.flatMap_map]
    rfl
  have joined : scores matrix = String.join ((scoreFields matrix).map fun fields =>
      String.join (fields.map (padStart (scoreWidth matrix))) ++ "\n") := by
    have rows : (numbers matrix.size).zip
        (matrix.cells.toList.map fun row => row.toList.map Score.text) =
          (List.finRange matrix.size).map fun row : Fin matrix.size => (number row,
            (List.finRange matrix.size).map fun column => (matrix.cell row column).text) := by
      rw [rows_eq_map, numbers_eq_map, List.zip_map']
    unfold scores
    simp only [rows, scoreFields, List.map_cons, List.map_map]
    rfl
  rw [joined, String.toList_join, List.flatMap_map, finished, List.flatMap_map]
  simp only [line]

/-- A field of the matrix is a number of a player, a score, or nothing. -/
inductive IsScoreField : String → Prop where
  | corner : IsScoreField ""
  | index (player : Fin matrix.size) : IsScoreField (number player)
  | score (row column : Fin matrix.size) : IsScoreField (matrix.cell row column).text

theorem is_score_field {fields : List String} (line : fields ∈ scoreFields matrix)
    {field : String} (member : field ∈ fields) : IsScoreField matrix field := by
  rcases List.mem_cons.mp line with rfl | inRow
  · rcases List.mem_cons.mp member with rfl | heading
    · exact .corner
    · rw [numbers_eq_map] at heading
      obtain ⟨player, _, rfl⟩ := List.mem_map.mp heading
      exact .index player
  · obtain ⟨row, _, rfl⟩ := List.mem_map.mp inRow
    rcases List.mem_cons.mp member with rfl | cell
    · exact .index row
    · obtain ⟨column, _, rfl⟩ := List.mem_map.mp cell
      exact .score row column

variable {matrix}

theorem score_field_fits {field : String} (isField : IsScoreField matrix field) :
    field.length + gap ≤ scoreWidth matrix := by
  rw [scoreWidth, columnWidth, rows_eq_map, numbers_eq_map]
  apply Nat.add_le_add_right
  cases isField with
  | corner => exact Nat.zero_le _
  | index player =>
      exact le_widest (List.mem_append_left _ (List.mem_map_of_mem (List.mem_finRange player)))
  | score row column =>
      refine le_widest (List.mem_append_right _ (List.mem_flatten.mpr
        ⟨_, List.mem_map_of_mem (List.mem_finRange row), ?_⟩))
      exact List.mem_map_of_mem (List.mem_finRange column)

theorem number_numeral (index : Nat) : Decimal.Numeral (number index).toList index := by
  have numeral := Decimal.Numeral.whole (Decimal.all_digits_to_digits index) Nat.toDigits_ne_nil
  rwa [Decimal.of_digits_to_digits, ← String.toList_ofList (l := Nat.toDigits 10 index)] at numeral

theorem score_field_characters {field : String} (isField : IsScoreField matrix field) :
    ∀ character ∈ field.toList, Decimal.isDigit character = true ∨ character = '.' := by
  cases isField with
  | corner => simp
  | index player => exact (number_numeral player).characters
  | score row column => exact (matrix.cell row column).text_numeral.characters

theorem plain_of_score_field {field : String} (isField : IsScoreField matrix field) :
    ' ' ∉ field.toList ∧ '\n' ∉ field.toList := by
  have characters := score_field_characters isField
  constructor
  · intro space
    rcases characters ' ' space with digit | point
    · cases digit
    · cases point
  · intro feed
    rcases characters '\n' feed with digit | point
    · cases digit
    · cases point

theorem no_feed_in_score_line {width : Nat} {fields : List String}
    (plain : ∀ field ∈ fields, '\n' ∉ field.toList) : '\n' ∉ scoreLine width fields := by
  intro feed
  obtain ⟨field, member, inColumn⟩ := List.mem_flatMap.mp feed
  rw [pad_start_characters] at inColumn
  rcases List.mem_append.mp inColumn with inSpaces | inField
  · exact absurd (List.eq_of_mem_replicate inSpaces) (by decide)
  · exact plain field member inField

theorem score_lines (matrix : ScoreMatrix) : (scores matrix).toList.splitOnP (· == '\n') =
    (scoreFields matrix).map (scoreLine (scoreWidth matrix)) ++ [[]] := by
  rw [scores_written]
  apply split_finished
  intro line member
  obtain ⟨fields, listed, rfl⟩ := List.mem_map.mp member
  exact no_feed_in_score_line fun field inLine =>
    (plain_of_score_field (is_score_field matrix listed inLine)).2

structure Shows (matrix : ScoreMatrix) (fields : List String) (line : List Char) : Prop where
  wide : line.length = (matrix.size + 1) * scoreWidth matrix
  spaced : Spaced (fields.map String.toList) line
  words : words line = (fields.map String.toList).filter (· ≠ [])

theorem score_line_shows {fields : List String} (line : fields ∈ scoreFields matrix) :
    Shows matrix fields (scoreLine (scoreWidth matrix) fields) := by
  have fits : ∀ field ∈ fields, field.length + gap ≤ scoreWidth matrix :=
    fun field member => score_field_fits (is_score_field matrix line member)
  have count : fields.length = matrix.size + 1 := by
    rcases List.mem_cons.mp line with rfl | inRow
    · simp [numbers]
    · obtain ⟨row, _, rfl⟩ := List.mem_map.mp inRow
      simp [rowFields]
  have spaced := score_line_spaced fits
  refine ⟨count ▸ length_score_line fits, spaced, words_of_spaced spaced ?_⟩
  intro characters member
  obtain ⟨field, listed, rfl⟩ := List.mem_map.mp member
  exact (plain_of_score_field (is_score_field matrix line listed)).1

theorem row_words {row : Fin matrix.size} {line : List Char}
    (shows : Shows matrix (rowFields matrix row) line) :
    words line = (number row).toList ::
      (List.finRange matrix.size).map fun column => (matrix.cell row column).text.toList := by
  have written : ∀ {text : List Char} {value : ℚ}, Decimal.Numeral text value → text ≠ [] := by
    intro text value numeral
    obtain ⟨digit, rest, rfl, _⟩ := numeral.head
    exact List.cons_ne_nil digit rest
  rw [shows.words, rowFields, List.map_cons, List.map_map, List.filter_eq_self.mpr]
  · rfl
  · intro field member
    rw [decide_eq_true_iff]
    rcases List.mem_cons.mp member with rfl | cell
    · exact written (number_numeral row)
    · obtain ⟨column, _, rfl⟩ := List.mem_map.mp cell
      exact written (matrix.cell row column).text_numeral

/-! ## What the two texts determine -/

theorem row_line_words (matrix : ScoreMatrix) (row : Fin matrix.size) :
    words (scoreLine (scoreWidth matrix) (rowFields matrix row)) = (number row).toList ::
      (List.finRange matrix.size).map fun column => (matrix.cell row column).text.toList :=
  row_words (score_line_shows
    (List.mem_cons_of_mem _ (List.mem_map_of_mem (List.mem_finRange row))))

theorem cells_of_scores {size : Nat} {players otherPlayers : Vector String size}
    {cells otherCells : Vector (Vector Score size) size}
    (same : scores ⟨size, otherPlayers, otherCells⟩ = scores ⟨size, players, cells⟩) :
    otherCells = cells := by
  have lines := score_lines ⟨size, otherPlayers, otherCells⟩
  rw [same, score_lines] at lines
  have rows := (List.cons.inj (List.append_cancel_right lines)).2
  rw [List.map_map, List.map_map, List.map_inj_left] at rows
  refine vector_ext fun row => vector_ext fun column => ?_
  have sameWords := congrArg words (rows row (List.mem_finRange row))
  rw [Function.comp_apply, Function.comp_apply, row_line_words, row_line_words] at sameWords
  have texts := List.map_inj_left.mp (List.cons.inj sameWords).2 column (List.mem_finRange column)
  exact (Score.text_injective (String.toList_inj.mp texts)).symm

theorem matrix_of_scores {matrix other : ScoreMatrix}
    (samePlayers : other.players.toList = matrix.players.toList)
    (same : scores other = scores matrix) : other = matrix := by
  obtain ⟨size, players, cells⟩ := matrix
  obtain ⟨otherSize, otherPlayers, otherCells⟩ := other
  have sameSize : otherSize = size := by
    have lengths := congrArg List.length samePlayers
    simpa using lengths
  subst sameSize
  obtain rfl := Vector.toList_inj.mp samePlayers
  rw [cells_of_scores same]

/-- A name on one line that no trimming shortens. -/
structure Legible (name : String) : Prop where
  oneLine : '\n' ∉ name.toList
  stop : ∀ character ∈ name.toList.getLast?, isBlank character = false

theorem trim_legible {name : String} (legible : Legible name) :
    trimEnd name.toList = name.toList := by
  refine List.rdropWhile_eq_self_iff.mpr fun some => ?_
  rw [legible.stop _ (List.getLast?_eq_getLast_of_ne_nil some)]
  exact Bool.false_ne_true

theorem legible_of_single_line {name : String} (single : SingleLine name) : Legible name := by
  constructor
  · intro feed
    exact absurd (single.spaces '\n' feed rfl) (by decide)
  · intro character last
    by_contra blank
    rw [Bool.not_eq_false] at blank
    exact single.stop character last
      (single.spaces character (List.mem_of_mem_getLast? last) blank)

theorem legend_shows {players : List String} (legible : ∀ name ∈ players, Legible name)
    {index : Nat} (listed : index < players.length) :
    ∃ line, (playerLines players)[index]? = some line ∧
      line.drop (indexWidth players.length) = players[index].toList := by
  obtain ⟨line, found, lists⟩ := player_line_lists listed
  refine ⟨line, found, ?_⟩
  rw [lists.behind, trim_legible (legible _ (List.getElem_mem listed))]

theorem players_of_legend {players others : List String}
    (legible : ∀ name ∈ players, Legible name) (legibleOthers : ∀ name ∈ others, Legible name)
    (same : legend others = legend players) : others = players := by
  have sameLines : playerLines others = playerLines players := by
    have lines := legend_lines fun name member => (legibleOthers name member).oneLine
    rw [same, legend_lines fun name member => (legible name member).oneLine] at lines
    exact (List.cons.inj (List.append_cancel_right lines)).2.symm
  have sameLength : others.length = players.length := by
    rw [← length_player_lines, sameLines, length_player_lines]
  apply List.ext_getElem sameLength
  intro index listedOther listed
  obtain ⟨line, found, name⟩ := legend_shows legible listed
  obtain ⟨otherLine, foundOther, otherName⟩ := legend_shows legibleOthers listedOther
  rw [sameLines, found] at foundOther
  obtain rfl := Option.some.inj foundOther
  rw [sameLength, name] at otherName
  exact String.toList_inj.mp otherName.symm

structure PrintoutsKeep : Prop where
  legend : ∀ players : List String, (∀ name ∈ players, Legible name) → ∃ heading lines,
    (Layout.legend players).toList.splitOnP (· == '\n') = heading :: lines ++ [[]] ∧
      lines.length = players.length ∧
      ∀ (index : Nat) (listed : index < players.length), ∃ line, lines[index]? = some line ∧
        line.drop (indexWidth players.length) = players[index].toList
  matrix : ∀ matrix : ScoreMatrix, ∃ heading lines,
    (Layout.scores matrix).toList.splitOnP (· == '\n') = heading :: lines ++ [[]] ∧
      lines.length = matrix.size ∧ Shows matrix ("" :: numbers matrix.size) heading ∧
      ∀ row : Fin matrix.size, ∃ line, lines[row]? = some line ∧
        Shows matrix (rowFields matrix row) line ∧
        words line = (number row).toList ::
          (List.finRange matrix.size).map fun column => (matrix.cell row column).text.toList
  indices : ∀ index, Decimal.Numeral (number index).toList index
  scores : ∀ score : Score, Decimal.Numeral score.text.toList score.games
  numerals : ∀ text number other, Decimal.Numeral text number → Decimal.Numeral text other →
    other = number
  tables : ∀ table other : Crosstable, (∀ name ∈ table.players, Legible name) →
    (∀ name ∈ other.players, Legible name) →
    Layout.legend other.players = Layout.legend table.players →
    Layout.scores (ScoreMatrix.ofTable other) = Layout.scores (ScoreMatrix.ofTable table) →
      ScoreMatrix.ofTable other = ScoreMatrix.ofTable table
  names : ∀ raw record, GameRecord.read raw = .ok record →
    Legible record.black ∧ Legible record.white

/-- The legend and the matrix have a line for each player under a heading, and nothing is lost in
them. Behind the index column of its line a name stands as it is, if it has no line break and no
blank at its end, as all names that are read; the lines of the matrix are equally long, two spaces
or more are in front of each field, and the words of a row are its number and its scores. So two
tables with the same legend and the same printed matrix have the same matrix. -/
theorem printouts_lose_nothing : PrintoutsKeep where
  legend players legible :=
    ⟨_, playerLines players, legend_lines fun name member => (legible name member).oneLine,
      length_player_lines players, fun index listed => legend_shows legible listed⟩
  matrix matrix := by
    refine ⟨_, _, score_lines matrix, ?_, score_line_shows List.mem_cons_self, fun row => ?_⟩
    · rw [List.length_map, List.length_map, List.length_finRange]
    · have line : rowFields matrix row ∈ scoreFields matrix :=
        List.mem_cons_of_mem _ (List.mem_map_of_mem (List.mem_finRange row))
      refine ⟨_, ?_, score_line_shows line, row_line_words matrix row⟩
      simp
  indices := number_numeral
  scores := Score.text_numeral
  numerals _ _ _ := Decimal.numeral_unique
  tables _ _ legible legibleOthers sameLegend :=
    matrix_of_scores (players_of_legend legible legibleOthers sameLegend)
  names raw record readable := by
    obtain ⟨_, black, white⟩ := GameRecord.read_is_canonical readable
    exact ⟨legible_of_single_line black, legible_of_single_line white⟩

/-- Nobody's name and a name with spaces inside it are printed and found again. -/
theorem empty_and_spaced_names_are_printed :
    (∀ name ∈ ["", "a  b"], Legible name) ∧
      ∃ heading lines, (legend ["", "a  b"]).toList.splitOnP (· == '\n') =
        heading :: lines ++ [[]] ∧ lines.length = 2 ∧
        ∃ first second, lines[0]? = some first ∧ first.drop (indexWidth 2) = [] ∧
          lines[1]? = some second ∧ second.drop (indexWidth 2) = ['a', ' ', ' ', 'b'] := by
  have legible : ∀ name ∈ ["", "a  b"], Legible name := by
    intro name member
    rcases List.mem_pair.mp member with rfl | rfl
    · exact ⟨by decide, by simp⟩
    · exact ⟨by decide, by simp; decide⟩
  obtain ⟨heading, lines, split, count, shown⟩ := printouts_lose_nothing.legend ["", "a  b"] legible
  obtain ⟨first, isFirst, firstName⟩ := shown 0 (by decide)
  obtain ⟨second, isSecond, secondName⟩ := shown 1 (by decide)
  exact ⟨legible, heading, lines, split, count, first, second, isFirst, firstName, isSecond,
    secondName⟩

end Layout

end KifuRatings
