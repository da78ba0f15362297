import KifuRatings.Crosstable.ScoreMatrix
import KifuRatings.Decimal.Shortest
import KifuRatings.Rating.RatingList
import KifuRatings.Summary.Json

/-!
# Exporting a summary

A summary is exported as one JSON object: the players, the entries of the table, the score
matrix, the ratings if there are any, whether a game was nonstandard, and the time of the
export. Records come in the order of the table, so it can be rebuilt from them.
-/

namespace KifuRatings.Export

/-- Doubles whose leading digit stands at most 16 places before the point and at most four
zeros after it are written in full, the others with an exponent. Every number shows a
point or an exponent. -/
def digitsText (count : Nat) (grid : Int) : List Char :=
  let digits := Nat.toDigits 10 count
  let magnitude : Int := digits.length + grid
  if 0 ≤ grid ∧ magnitude ≤ 16 then Decimal.positional count grid ++ ['.', '0']
  else if -5 < magnitude ∧ magnitude ≤ 16 then Decimal.positional count grid
  else
    let rest := digits.tail
    let power := magnitude - 1
    digits.take 1 ++ (if rest = [] then [] else '.' :: rest)
      ++ 'e' :: (if power < 0 then ['-'] else []) ++ Nat.toDigits 10 power.natAbs

/-- JSON has no word for what is not a finite number. -/
def double (value : Float) : Json :=
  match Decimal.Parts.of value with
  | .finite negative mantissa exponent narrowBelow =>
      .literal <| Decimal.signed negative <|
        if mantissa == 0 then ['0', '.', '0']
        else
          let (count, grid) := Decimal.shortestDigits mantissa exponent narrowBelow
          digitsText count grid
  | _ => .literal "null"

def score (value : Score) : Json :=
  .literal (if value.halves % 2 = 0 then value.text ++ ".0" else value.text)

def record (pairing : Pairing) (tally : Tally) : Json :=
  .object [("first_player", .text pairing.first), ("second_player", .text pairing.second),
    ("wins", .nat tally.wins.toNat), ("losses", .nat tally.losses.toNat),
    ("draws", .nat tally.draws.toNat), ("games", .nat tally.total.toNat)]

def rating (entry : Rating Float) : Json :=
  .object [("name", .text entry.name), ("elo", double entry.elo),
    ("stderr", double entry.stderr)]

def ratings (list : RatingList Float) : Json := .list (list.entries.toList.map rating)

def document (table : Crosstable) (rated : Option (RatingList Float)) (nonstandard : Bool)
    (createdAt : String) : Json :=
  let matrix := ScoreMatrix.ofTable table
  .object <|
    [("players", .list (matrix.players.toList.map .text)),
      ("records", .list (table.entries.map fun (pairing, tally) => record pairing tally)),
      ("win_matrix", .list (matrix.cells.toList.map fun row => .list (row.toList.map score)))]
    ++ (rated.map fun list => ("ratings", ratings list)).toList
    ++ [("nonstandard_games", .bool nonstandard), ("created_at", .text createdAt)]

end KifuRatings.Export
