import KifuRatings.Rating.Posterior
import KifuRatings.Rating.RatingList

/-!
# Fitting ratings

The strengths that maximise the log posterior are sought by Newton's method from zero. A
step that lowers the log posterior is halved, at most 27 times: that is below `10 ^ -8` of
its length. The search ends with a step whose largest component is below the tolerance,
and the inverse of the precision matrix at its end gives the covariances.
-/

namespace KifuRatings

inductive FitError where
  /-- No term mentions a player. -/
  | noPlayers
  /-- Some combination of ratings is not determined, as with two groups that never met. -/
  | singularSystem
  /-- The curvature vanished on the way: the rating of this player has no finite maximum. -/
  | unboundedRating (player : String)
  | notConverged (iterations : Nat)
deriving DecidableEq, Repr

def FitError.message : FitError → String
  | .noPlayers => "no players to rate"
  | .singularSystem => "ratings are not identifiable from the given games"
  | .unboundedRating player =>
      "rating of " ++ player ++ " is unbounded; it won or lost every game"
  | .notConverged iterations =>
      "rating estimation did not converge after " ++ String.ofList (Nat.toDigits 10 iterations)
        ++ " iterations"

structure FitSettings (α : Type) where
  maxIterations : Nat
  /-- In units of strength. -/
  tolerance : α

namespace Fit

variable {α : Type} [Scalar α] {size : Nat}

def defaultSettings : FitSettings α := ⟨200, 1e-10⟩

structure Position (α : Type) (size : Nat) where
  strengths : Vector α size
  value : α

def position (link : Link α) (posterior : Posterior α size) (strengths : Vector α size) :
    Position α size :=
  ⟨strengths, posterior.value link strengths⟩

def maxHalvings : Nat := 27

def shift (strengths step : Vector α size) (scale : α) : Vector α size :=
  strengths.zipWith (fun strength change => strength + scale * change) step

def lineSearch (link : Link α) (posterior : Posterior α size) (start : Position α size)
    (step : Vector α size) : Nat → α → α × Position α size
  | halvings, scale =>
      let reached := position link posterior (shift start.strengths step scale)
      match halvings with
      | 0 => (scale, reached)
      | halvings + 1 =>
          if reached.value < start.value then
            lineSearch link posterior start step halvings (scale * 0.5)
          else (scale, reached)

def outlier (posterior : Posterior α size) (strengths : Vector α size) : String :=
  let mean := Scalar.sum strengths.toList / Scalar.ofNat size
  let players := posterior.players.toList.zip strengths.toList
  (Scalar.lastGreatest (fun (_, strength) => Scalar.abs (strength - mean)) ("", 0) players).1

/-- Newton steps from a position. A singular system at the first step means that the terms
do not determine the ratings; later it means that a rating has run away. -/
def climb (link : Link α) (settings : FitSettings α) (posterior : Posterior α size) :
    Nat → Bool → Position α size → Except FitError (Vector α size)
  | 0, _, _ => .error (.notConverged settings.maxIterations)
  | remaining + 1, isFirst, start =>
      let precision := posterior.precision link start.strengths
      match precision.solve (posterior.gradient link start.strengths) with
      | none =>
          .error (if isFirst then .singularSystem
            else .unboundedRating (outlier posterior start.strengths))
      | some step =>
          let (scale, reached) := lineSearch link posterior start step maxHalvings 1
          let largest := Scalar.greatestAbs (step.toList.map (· * scale))
          if largest < settings.tolerance then .ok reached.strengths
          else climb link settings posterior remaining false reached

def search (link : Link α) (settings : FitSettings α) (posterior : Posterior α size) :
    Except FitError (Vector α size) :=
  climb link settings posterior settings.maxIterations true
    (position link posterior (Vector.replicate size 0))

end Fit

open Fit in
def RatingList.ofStrengths {α : Type} [Analytic α] {size : Nat} (players : Vector String size)
    (strengths : Vector α size) (covariance : Grid α size) : RatingList α where
  size := size
  entries := Vector.ofFn fun index =>
    let variance := Scalar.greater (covariance.entry index index) 0
    { name := players.get index
      elo := strengths.get index * Term.eloPerStrength
      stderr := Analytic.sqrt variance * Term.eloPerStrength }
  covariance := covariance.map fun row =>
    row.map (· * (Term.eloPerStrength * Term.eloPerStrength))

def Fit.estimate {α : Type} [Analytic α] (link : Link α) (settings : FitSettings α)
    (terms : List (Term String α)) : Except FitError (RatingList α) := do
  let posterior := Posterior.ofTerms terms
  if (Posterior.playersOf terms).isEmpty then throw .noPlayers
  let strengths ← Fit.search link settings posterior
  match (posterior.precision link strengths).inverse with
  | none => throw .singularSystem
  | some covariance => return RatingList.ofStrengths posterior.players strengths covariance

end KifuRatings
