import KifuRatings.Text.Utf8

/-!
# Game records

The information about one game of Go that is needed to score it. Black moves first.
-/

namespace KifuRatings

inductive Color where
  | black
  | white
deriving DecidableEq, Repr

def Color.letter : Color → Char
  | .black => 'B'
  | .white => 'W'

/-- What the root node of a game record says. A game without a winner is a draw, void or
unfinished. -/
structure GameRecord where
  black : String
  white : String
  winner : Option Color
  handicap : Option UInt32
  komi : Float

namespace GameRecord

/-- A handicap of no stones or of one is an even game. -/
def hasHandicap (record : GameRecord) : Bool :=
  record.handicap.any (2 ≤ ·)

/-- Equality in which a komi that is not a number equals nothing. -/
def agrees (left right : GameRecord) : Bool :=
  left.black == right.black && left.white == right.white && left.winner == right.winner
    && left.handicap == right.handicap && left.komi == right.komi

end GameRecord

inductive RecordError where
  | empty
  | missingGameTree
  | unterminatedValue (ident : String)
  | missingValue (ident : String)
  /-- The byte that stands where a property should start. -/
  | invalidIdent (byte : UInt8)
  | missingProperty (ident : String)
  | invalidKomi (text : String)
  | invalidHandicap (text : String)
deriving DecidableEq, Repr

/-- A stray byte is shown as the character with its number. -/
def RecordError.message : RecordError → String
  | .empty => "empty SGF record"
  | .missingGameTree => "invalid SGF: expected '(;' at the start of the game tree"
  | .unterminatedValue ident => "unterminated value for property " ++ ident
  | .missingValue ident => "property " ++ ident ++ " has no value"
  | .invalidIdent byte =>
      "invalid character '" ++ String.singleton (Char.ofNat byte.toNat)
        ++ "' in property identifier"
  | .missingProperty ident => "missing required property " ++ ident
  | .invalidKomi text => "invalid komi: " ++ text
  | .invalidHandicap text => "invalid handicap: " ++ text

end KifuRatings
