import KifuRatings.Names
import KifuRatings.Rating.Elimination
import KifuRatings.Rating.Term

/-!
# The log posterior

The log posterior of a list of terms is the sum of their values. Its gradient and its
matrix of second derivatives are collected term by term from the derivatives with respect
to each combination; a player who is mentioned more than once in a combination
contributes more than once.
-/

namespace KifuRatings

/-- Terms over players who are numbered in the order of their names. -/
structure Posterior (α : Type) (size : Nat) where
  players : Vector String size
  terms : List (Term (Fin size) α)

namespace Posterior

variable {α : Type} [Scalar α] {size : Nat}

/-- Replaces the names of a term by numbers; a name without a number is left out. -/
def place (players : Vector String size) (term : Term String α) : Term (Fin size) α where
  combo := term.combo.filterMap fun (name, coefficient) =>
    (players.finIdxOf? name).map fun index => (index, coefficient)
  offset := term.offset
  weight := term.weight
  shape := term.shape

def playersOf (terms : List (Term String α)) : List String :=
  sortedNames (terms.flatMap fun term => term.combo.map (·.1))

def ofTerms (terms : List (Term String α)) : Posterior α (playersOf terms).length :=
  let players : Vector String (playersOf terms).length := ⟨(playersOf terms).toArray, rfl⟩
  ⟨players, terms.map (place players)⟩

def combination (strengths : Vector α size) (term : Term (Fin size) α) : α :=
  Scalar.sum (term.combo.map fun (index, coefficient) => coefficient * strengths.get index)
    + term.offset

def value (link : Link α) (posterior : Posterior α size) (strengths : Vector α size) : α :=
  Scalar.sum (posterior.terms.map fun term => term.value link (combination strengths term))

def accumulate (start : Vector α size) (shares : List (Fin size × α)) : Vector α size :=
  shares.foldl (fun vector (index, share) =>
    vector.set index (vector.get index + share) index.isLt) start

def gradient (link : Link α) (posterior : Posterior α size) (strengths : Vector α size) :
    Vector α size :=
  accumulate (Vector.replicate size 0) <| posterior.terms.flatMap fun term =>
    let slope := term.slope link (combination strengths term)
    term.combo.map fun (index, coefficient) => (index, slope * coefficient)

def accumulateGrid (start : Grid α size) (shares : List (Fin size × Fin size × α)) :
    Grid α size :=
  shares.foldl (fun grid (row, column, share) =>
    let changed := (grid.get row).set column (grid.entry row column + share) column.isLt
    grid.set row changed row.isLt) start

def hessian (link : Link α) (posterior : Posterior α size) (strengths : Vector α size) :
    Grid α size :=
  accumulateGrid (Vector.replicate size (Vector.replicate size 0)) <|
    posterior.terms.flatMap fun term =>
      let curvature := term.curvature link (combination strengths term)
      term.combo.flatMap fun (row, left) =>
        term.combo.map fun (column, right) => (row, column, curvature * left * right)

/-- The second derivatives with the sign of a precision matrix. -/
def precision (link : Link α) (posterior : Posterior α size) (strengths : Vector α size) :
    Grid α size :=
  (posterior.hessian link strengths).map fun row => row.map (- ·)

end Posterior

end KifuRatings
