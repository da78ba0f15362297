import KifuRatings.GameRecord.Reader

/-!
# Outcomes

What counting needs to know about a game, whatever it is recorded in. The first player is
the one who moves first: Black, in a game of Go.
-/

namespace KifuRatings

/-- The side that won. Draws, void games and games without a result have no winner. -/
inductive Winner where
  | first
  | second
  | neither
deriving DecidableEq, Repr

structure Outcome where
  winner : Winner
  firstPlayer : String
  secondPlayer : String
  handicap : Bool
  komi : Float

namespace Outcome

def winnerOf : Option Color → Winner
  | some .black => .first
  | some .white => .second
  | none => .neither

def ofRecord (record : GameRecord) : Outcome where
  winner := winnerOf record.winner
  firstPlayer := record.black
  secondPlayer := record.white
  handicap := record.hasHandicap
  komi := record.komi

def read (raw : Bytes) : Except RecordError Outcome := do
  return ofRecord (← GameRecord.read raw)

end Outcome

end KifuRatings
