import KifuRatings.Decimal.Shortest
import KifuRatings.GameRecord.Basic

/-!
# Writing a game record

A record is written as a root node alone. A win is written as a win by resignation, and a
game without a winner as a draw; a closing bracket or a backslash in a name is escaped.
-/

namespace KifuRatings.GameRecord

def escape (name : List Char) : List Char :=
  name.flatMap fun character =>
    if character == ']' || character == '\\' then ['\\', character] else [character]

def result : Option Color → List Char
  | some color => [color.letter, '+', 'R']
  | none => ['0']

def property (ident : String) (value : List Char) : List Char :=
  ident.toList ++ '[' :: (value ++ [']'])

def write (record : GameRecord) : String :=
  String.ofList <|
    ['(', ';'] ++ property "GM" ['1'] ++ property "FF" ['4']
      ++ property "PB" (escape record.black.toList)
      ++ property "PW" (escape record.white.toList)
      ++ property "RE" (result record.winner)
      ++ property "KM" (Decimal.shortest record.komi).toList
      ++ (match record.handicap with
        | some stones => property "HA" (Nat.toDigits 10 stones.toNat)
        | none => [])
      ++ [')']

end KifuRatings.GameRecord
