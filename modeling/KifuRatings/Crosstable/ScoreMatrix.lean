import KifuRatings.Crosstable.Basic

/-!
# The score matrix

Cell `i, j` of the score matrix holds what player `i` scored against player `j`, whoever
began; a draw is half a game to both. Scores are kept as whole numbers of half games, so
nothing is rounded. Won games are added up as scores, drawn ones while they are still counters.
What players scored against themselves is left out.
-/

namespace KifuRatings

/-- Games won, in halves. -/
structure Score where
  halves : Nat
deriving DecidableEq, Repr

namespace Score

def zero : Score := ⟨0⟩

/-- Whole scores have no point, the others one place. -/
def text (score : Score) : String :=
  let whole := String.ofList (Nat.toDigits 10 (score.halves / 2))
  if score.halves % 2 = 0 then whole else whole ++ ".5"

end Score

/-- Rows and columns follow the list of players. -/
structure ScoreMatrix where
  size : Nat
  players : Vector String size
  cells : Vector (Vector Score size) size
deriving DecidableEq

namespace ScoreMatrix

/-- What one player scored against another, from both pairings of the two. -/
def scoreOf (table : Crosstable) (player opponent : String) : Score :=
  let began := table.tally player opponent
  let answered := table.tally opponent player
  ⟨2 * (began.wins.toNat + answered.losses.toNat) + (began.draws + answered.draws).toNat⟩

def ofPlayers (table : Crosstable) {size : Nat} (players : Vector String size) : ScoreMatrix where
  size := size
  players := players
  cells := Vector.ofFn fun row => Vector.ofFn fun column =>
    if row = column then Score.zero else scoreOf table (players.get row) (players.get column)

def ofTable (table : Crosstable) : ScoreMatrix := ofPlayers table ⟨table.players.toArray, rfl⟩

def cell (matrix : ScoreMatrix) (row column : Fin matrix.size) : Score :=
  (matrix.cells.get row).get column

def isEmpty (matrix : ScoreMatrix) : Bool := matrix.size == 0

def index? (matrix : ScoreMatrix) (player : String) : Option (Fin matrix.size) :=
  matrix.players.finIdxOf? player

def score? (matrix : ScoreMatrix) (player opponent : String) : Option Score := do
  let row ← matrix.index? player
  let column ← matrix.index? opponent
  return matrix.cell row column

end ScoreMatrix

end KifuRatings
