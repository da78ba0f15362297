import KifuRatings.Crosstable.ScoreMatrix
import KifuRatings.Text.Blank
import KifuRatings.Text.Columns

/-!
# Tables on the console

The legend numbers the players; the score matrix uses these numbers as headings of rows and
columns. The legend's fields stand at the left of their columns and lines end without
blanks; the matrix is one column width throughout, with its fields at the right.
-/

namespace KifuRatings.Layout

def gap : Nat := 2

def columnWidth (fields : List String) : Nat := Text.widest fields + gap

def number (index : Nat) : String := String.ofList (Nat.toDigits 10 index)

def numbers (count : Nat) : List String := (List.range count).map number

/-- A text as lines that all end with a line feed and no blank before it. An unfinished
last line is finished, and text that ends with a line feed has no empty line after it. -/
def trimLines (text : List Char) : String :=
  let lines := text.splitOnP (· == '\n')
  let complete := if lines.getLast? = some [] then lines.dropLast else lines
  String.ofList (complete.flatMap fun line => Text.trimEnd line ++ ['\n'])

def legend (players : List String) : String :=
  let indexed := ("Index", "Player") :: (numbers players.length).zip players
  let indexWidth := columnWidth (indexed.map (·.1))
  let nameWidth := columnWidth (indexed.map (·.2))
  trimLines <| indexed.flatMap fun (index, name) =>
    (Text.padEnd indexWidth index ++ Text.padEnd nameWidth name).toList ++ ['\n']

def scores (matrix : ScoreMatrix) : String :=
  let headings := numbers matrix.size
  let rows := matrix.cells.toList.map fun row => row.toList.map Score.text
  let width := columnWidth (headings ++ rows.flatten)
  let line (fields : List String) : String := String.join (fields.map (Text.padStart width)) ++ "\n"
  String.join <| line ("" :: headings) ::
    (headings.zip rows).map fun (heading, row) => line (heading :: row)

end KifuRatings.Layout
