import KifuRatings.Crosstable.ScoreMatrix
import KifuRatings.Rating.Fit

/-!
# Rating the players of a crosstable

Every two players who met contribute their games and the part that the first of them won.
If virtual draws are asked for, each player drew that many games against an opponent with
the prior rating. The mean strength is drawn to the prior rating.
-/

namespace KifuRatings

variable {α : Type}

def Score.toScalar [Scalar α] (score : Score) : α := Scalar.ofNat score.halves * 0.5

namespace ScoreMatrix

/-- The terms of two players' games; players who never met have none. -/
def pairTerms [Scalar α] (matrix : ScoreMatrix) (first second : Fin matrix.size) :
    List (Term String α) :=
  let won : α := (matrix.cell first second).toScalar
  let total := won + (matrix.cell second first).toScalar
  if total ≤ 0 then []
  else Term.ofGames (matrix.players.get first) (matrix.players.get second) total (won / total)

def terms [Scalar α] (matrix : ScoreMatrix) (prior virtualDraws : α) : List (Term String α) :=
  let indices := List.finRange matrix.size
  let games := indices.flatMap fun first =>
    (indices.filter (first < ·)).flatMap fun second => matrix.pairTerms first second
  let players := matrix.players.toList
  let draws :=
    if 0 < virtualDraws then players.flatMap (Term.anchored · virtualDraws prior) else []
  games ++ draws ++ [Term.center players prior]

end ScoreMatrix

def Crosstable.rate [Analytic α] (link : Link α) (settings : FitSettings α) (table : Crosstable)
    (prior virtualDraws : α) : Except FitError (RatingList α) :=
  let matrix := ScoreMatrix.ofTable table
  if matrix.isEmpty then .error .noPlayers
  else Fit.estimate link settings (matrix.terms prior virtualDraws)

end KifuRatings
