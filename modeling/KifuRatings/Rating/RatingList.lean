import KifuRatings.Decimal.Fixed
import KifuRatings.Rating.Elimination
import KifuRatings.Text.Columns

/-!
# Rating lists

A rating list holds the fitted ratings in the order of the players' names, together with
their covariances in squared Elo points. On paper the strongest player comes first.
-/

namespace KifuRatings

/-- `stderr` is one standard error of `elo`. -/
structure Rating (α : Type) where
  name : String
  elo : α
  stderr : α

/-- Covariances are indexed like entries. -/
structure RatingList (α : Type) where
  size : Nat
  entries : Vector (Rating α) size
  covariance : Grid α size

namespace RatingList

variable {α : Type} [Analytic α]

def index? (ratings : RatingList α) (name : String) : Option (Fin ratings.size) :=
  ratings.entries.findFinIdx? (·.name == name)

def find? (ratings : RatingList α) (name : String) : Option (Rating α) :=
  (ratings.index? name).map ratings.entries.get

/-- The mean rating, zero if nobody is rated. -/
def mean (ratings : RatingList α) : α :=
  if ratings.size = 0 then 0
  else Scalar.sum (ratings.entries.toList.map (·.elo)) / Scalar.ofNat ratings.size

/-- The standard error of a difference. Ratings that move together make it smaller than the
errors of the two ratings suggest. -/
def differenceError? (ratings : RatingList α) (left right : String) : Option α := do
  let i ← ratings.index? left
  let j ← ratings.index? right
  let covariance := ratings.covariance.entry
  let variance := covariance i i + covariance j j - 2.0 * covariance i j
  return Analytic.sqrt (Scalar.greater variance 0)

/-- Whether the first rating is printed no later than the second: the higher one first, and
equal ones by name. -/
def precedes (left right : Rating α) : Bool :=
  match Scalar.order right.elo left.elo with
  | .lt => true
  | .eq => (compare left.name right.name).isLE
  | .gt => false

def text (ratings : RatingList Float) : String :=
  let entries := ratings.entries.toList
  let width := Text.widest (entries.map (·.name))
  String.join <| (entries.mergeSort precedes).map fun rating =>
    Text.padEnd width rating.name ++ " : " ++ Text.padStart 8 (Decimal.fixed 1 rating.elo)
      ++ " +/- " ++ Text.padStart 6 (Decimal.fixed 1 rating.stderr) ++ "\n"

end RatingList

end KifuRatings
