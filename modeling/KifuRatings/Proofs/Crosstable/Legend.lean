import KifuRatings.Crosstable.Layout
import KifuRatings.Proofs.Decimal.Numeral
import KifuRatings.Proofs.Text.SingleLine

/-!
# The lines of the legend

Under its heading the legend has one line for each player: the player's number, and the name at the
next column. Trimming a line takes nothing from the number, and from the name only blanks at its
end.
-/

namespace KifuRatings

namespace Text

def finished (lines : List (List Char)) : List Char := lines.flatMap (· ++ ['\n'])

theorem split_finished {lines : List (List Char)} (oneLines : ∀ line ∈ lines, '\n' ∉ line) :
    (finished lines).splitOnP (· == '\n') = lines ++ [[]] := by
  induction lines with
  | nil => rfl
  | cons line lines induction =>
      have noFeed : ∀ character ∈ line, (character == '\n') = false := by
        intro character member
        rw [beq_eq_false_iff_ne]
        exact fun feed => oneLines line List.mem_cons_self (feed ▸ member)
      have others := induction fun other member => oneLines other (List.mem_cons_of_mem _ member)
      rw [finished, List.flatMap_cons, List.append_assoc, List.singleton_append,
        List.splitOnP_append_cons_of_forall_mem noFeed '\n' rfl, ← finished, others]
      rfl

theorem trim_end_spaces (text : List Char) (count : Nat) :
    trimEnd (text ++ List.replicate count ' ') = trimEnd text := by
  have blank : ∀ character ∈ List.replicate count ' ', isBlank character = true := by
    intro character member
    rw [List.eq_of_mem_replicate member]
    rfl
  rw [trimEnd, List.reverse_append, List.reverse_replicate, List.dropWhile_append_of_pos blank,
    trimEnd]

theorem trim_end_plain {text : List Char} (plain : ∀ character ∈ text, isBlank character = false) :
    trimEnd text = text := by
  refine List.rdropWhile_eq_self_iff.mpr fun some => ?_
  rw [plain _ (List.getLast_mem some)]
  exact Bool.false_ne_true

theorem trim_end_append (front : List Char) {text : List Char} (shown : trimEnd text ≠ []) :
    trimEnd (front ++ text) = front ++ trimEnd text := by
  have left : (text.reverse.dropWhile isBlank).isEmpty = false := by
    rw [List.isEmpty_eq_false_iff]
    exact fun none => shown (by rw [trimEnd, none, List.reverse_nil])
  rw [trimEnd, List.reverse_append, List.dropWhile_append, left, if_neg Bool.false_ne_true,
    List.reverse_append, List.reverse_reverse, trimEnd]

theorem trim_end_append_blank (front : List Char) {text : List Char} (blank : trimEnd text = []) :
    trimEnd (front ++ text) = trimEnd front := by
  have nothing : text.reverse.dropWhile isBlank = [] := List.reverse_eq_nil_iff.mp blank
  rw [trimEnd, List.reverse_append, List.dropWhile_append, nothing, List.isEmpty_nil, if_pos rfl,
    trimEnd]

theorem pad_end_characters (width : Nat) (field : String) :
    (padEnd width field).toList =
      field.toList ++ List.replicate (width - field.length) ' ' := by
  rw [padEnd, spaces, String.toList_append, String.toList_ofList]

theorem foldl_max_ge (lengths : List Nat) (start : Nat) :
    start ≤ lengths.foldl max start ∧ ∀ length ∈ lengths, length ≤ lengths.foldl max start := by
  induction lengths generalizing start with
  | nil => simp
  | cons length lengths induction =>
      have later := induction (max start length)
      refine ⟨le_trans (le_max_left _ _) later.1, ?_⟩
      intro other member
      rcases List.mem_cons.mp member with rfl | member
      · exact le_trans (le_max_right _ _) later.1
      · exact later.2 other member

theorem le_widest {fields : List String} {field : String} (member : field ∈ fields) :
    field.length ≤ widest fields :=
  (foldl_max_ge _ 0).2 _ (List.mem_map_of_mem member)

end Text

namespace Layout

open Text

def indexWidth (count : Nat) : Nat := columnWidth ("Index" :: numbers count)

/-- A line with an index in a column of the given width, and a name behind it. -/
structure Lists (width : Nat) (line : List Char) (index name : String) : Prop where
  front : line.takeWhile (· ≠ ' ') = index.toList
  behind : line.drop width = trimEnd name.toList

def legendLine (width : Nat) (index name : String) : List Char :=
  trimEnd ((padEnd width index).toList ++ name.toList)

theorem legend_line_lists {width : Nat} {index : String} (name : String)
    (plain : ∀ character ∈ index.toList, isBlank character = false)
    (fits : index.length < width) : Lists width (legendLine width index name) index name := by
  have notSpace : ∀ character ∈ index.toList, decide (character ≠ ' ') = true := by
    intro character member
    rw [decide_eq_true_iff]
    intro space
    rw [space] at member
    exact Bool.noConfusion (plain ' ' member)
  have padded : (padEnd width index).toList.length = width := by
    rw [pad_end_characters, List.length_append, List.length_replicate, String.length_toList]
    omega
  -- A name of blanks only is trimmed away together with the gap before it.
  cases blank : trimEnd name.toList with
  | nil =>
      have line : legendLine width index name = index.toList := by
        rw [legendLine, trim_end_append_blank _ blank, pad_end_characters, trim_end_spaces,
          trim_end_plain plain]
      rw [line]
      constructor
      · exact List.takeWhile_eq_self_iff.mpr notSpace
      · rw [blank, List.drop_eq_nil_iff, String.length_toList]
        omega
  | cons first others =>
      have shown : trimEnd name.toList ≠ [] := by simp [blank]
      have line : legendLine width index name =
          (padEnd width index).toList ++ trimEnd name.toList := trim_end_append _ shown
      obtain ⟨room, count⟩ : ∃ room, width - index.length = room + 1 :=
        ⟨width - index.length - 1, by omega⟩
      rw [line]
      constructor
      · rw [pad_end_characters, List.append_assoc, List.takeWhile_append_of_pos notSpace, count,
          List.replicate_succ, List.cons_append, List.takeWhile_cons_of_neg (by simp),
          List.append_nil]
      · rw [List.drop_left' padded]

theorem trim_finished {lines : List (List Char)} (oneLines : ∀ line ∈ lines, '\n' ∉ line) :
    (trimLines (finished lines)).toList = finished (lines.map trimEnd) := by
  have last : (lines ++ [[]]).getLast? = some [] := by simp
  rw [trimLines, split_finished oneLines]
  simp only [last, if_true, List.dropLast_concat, String.toList_ofList, finished,
    List.flatMap_map]

theorem number_plain (index : Nat) :
    ∀ character ∈ (number index).toList, isBlank character = false := by
  intro character member
  rw [number, String.toList_ofList] at member
  exact not_blank_of_digit (Decimal.is_digit_of_to_digits member)

theorem heading_plain : ∀ character ∈ "Index".toList, isBlank character = false := by
  have noBlank : "Index".toList.any isBlank = false := rfl
  intro character member
  simpa using List.any_eq_false.mp noBlank character member

theorem heading_lists (count : Nat) :
    Lists (indexWidth count) (legendLine (indexWidth count) "Index" "Player") "Index" "Player" := by
  have narrow : "Index".length ≤ widest ("Index" :: numbers count) := le_widest List.mem_cons_self
  refine legend_line_lists "Player" heading_plain ?_
  rw [indexWidth, columnWidth, gap]
  omega

theorem number_fits {index count : Nat} (listed : index < count) :
    (number index).length < indexWidth count := by
  have field : number index ∈ "Index" :: numbers count :=
    List.mem_cons_of_mem _ (List.mem_map_of_mem (List.mem_range.mpr listed))
  have narrow := le_widest field
  rw [indexWidth, columnWidth, gap]
  omega

def paddedLine (width nameWidth : Nat) (field : String × String) : List Char :=
  (padEnd width field.1 ++ padEnd nameWidth field.2).toList

theorem padded_line_eq (width nameWidth : Nat) (field : String × String) :
    paddedLine width nameWidth field =
      ((padEnd width field.1).toList ++ field.2.toList) ++
        List.replicate (nameWidth - field.2.length) ' ' := by
  rw [paddedLine, String.toList_append, pad_end_characters nameWidth, List.append_assoc]

theorem trim_padded_line (width nameWidth : Nat) (field : String × String) :
    trimEnd (paddedLine width nameWidth field) = legendLine width field.1 field.2 := by
  rw [padded_line_eq, trim_end_spaces, legendLine]

theorem no_feed_in_padded_line {width nameWidth : Nat} {field : String × String}
    (plain : ∀ character ∈ field.1.toList, isBlank character = false)
    (oneLine : '\n' ∉ field.2.toList) : '\n' ∉ paddedLine width nameWidth field := by
  have noSpace : ∀ count, '\n' ∉ List.replicate count ' ' :=
    fun count feed => absurd (List.eq_of_mem_replicate feed) (by decide)
  have noIndex : '\n' ∉ field.1.toList := fun feed => Bool.noConfusion (plain '\n' feed)
  rw [padded_line_eq, pad_end_characters, List.mem_append, List.mem_append, List.mem_append]
  rintro (((inIndex | inGap) | inName) | inSpaces)
  · exact noIndex inIndex
  · exact noSpace _ inGap
  · exact oneLine inName
  · exact noSpace _ inSpaces

def legendFields (players : List String) : List (String × String) :=
  ("Index", "Player") :: (numbers players.length).zip players

theorem legend_field_plain {players : List String} {field : String × String}
    (member : field ∈ legendFields players) :
    (∀ character ∈ field.1.toList, isBlank character = false) ∧
      (field.2 = "Player" ∨ field.2 ∈ players) := by
  rcases List.mem_cons.mp member with rfl | listed
  · exact ⟨heading_plain, .inl rfl⟩
  · obtain ⟨isNumber, isName⟩ := List.of_mem_zip listed
    obtain ⟨index, _, same⟩ := List.mem_map.mp isNumber
    exact ⟨same ▸ number_plain index, .inr isName⟩

theorem legend_indices (players : List String) :
    (legendFields players).map (·.1) = "Index" :: numbers players.length := by
  rw [legendFields, List.map_cons, List.map_fst_zip]
  rw [numbers, List.length_map, List.length_range]

def playerLines (players : List String) : List (List Char) :=
  ((numbers players.length).zip players).map fun field =>
    legendLine (indexWidth players.length) field.1 field.2

theorem legend_lines {players : List String} (oneLines : ∀ name ∈ players, '\n' ∉ name.toList) :
    (legend players).toList.splitOnP (· == '\n') =
      legendLine (indexWidth players.length) "Index" "Player" :: playerLines players ++ [[]] := by
  let width := columnWidth ((legendFields players).map (·.1))
  let nameWidth := columnWidth ((legendFields players).map (·.2))
  have written : legend players =
      trimLines (finished ((legendFields players).map (paddedLine width nameWidth))) := by
    rw [finished, List.flatMap_map]
    rfl
  have padded : ∀ line ∈ (legendFields players).map (paddedLine width nameWidth), '\n' ∉ line := by
    intro line member
    obtain ⟨field, listed, rfl⟩ := List.mem_map.mp member
    obtain ⟨plain, heading | name⟩ := legend_field_plain listed
    · exact no_feed_in_padded_line plain (by rw [heading]; decide)
    · exact no_feed_in_padded_line plain (oneLines _ name)
  have trimmed : ((legendFields players).map (paddedLine width nameWidth)).map trimEnd =
      legendLine (indexWidth players.length) "Index" "Player" :: playerLines players := by
    have eachLine : trimEnd ∘ paddedLine width nameWidth =
        fun field => legendLine (indexWidth players.length) field.1 field.2 := by
      funext field
      rw [Function.comp_apply, trim_padded_line, indexWidth, ← legend_indices]
    rw [List.map_map, eachLine, legendFields, List.map_cons, playerLines]
  rw [written, trim_finished padded, ← trimmed]
  apply split_finished
  intro line member feed
  obtain ⟨whole, listed, rfl⟩ := List.mem_map.mp member
  exact padded whole listed (mem_of_trim_end feed)

@[simp]
theorem length_player_lines (players : List String) :
    (playerLines players).length = players.length := by
  rw [playerLines, List.length_map, List.length_zip, numbers, List.length_map, List.length_range,
    Nat.min_self]

theorem player_line_lists {players : List String} {index : Nat}
    (listed : index < players.length) :
    ∃ line, (playerLines players)[index]? = some line ∧
      Lists (indexWidth players.length) line (number index) players[index] := by
  have numbered : (numbers players.length)[index]? = some (number index) := by
    rw [numbers, List.getElem?_map, List.getElem?_range listed, Option.map_some]
  have field : ((numbers players.length).zip players)[index]? =
      some (number index, players[index]) := by
    rw [List.getElem?_zip_eq_some]
    exact ⟨numbered, List.getElem?_eq_getElem listed⟩
  refine ⟨legendLine (indexWidth players.length) (number index) players[index], ?_,
    legend_line_lists players[index] (number_plain index) (number_fits listed)⟩
  rw [playerLines, List.getElem?_map, field, Option.map_some]

end Layout

end KifuRatings
