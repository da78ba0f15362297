import KifuRatings.Rating.Scalar

/-!
# Terms of the log posterior

A player's strength is measured on the natural logistic scale: `a` beats `b` with the
probability that the logistic curve takes at the difference of their strengths. Every
result and every prior contributes one term, a function of a linear combination of
strengths. `Term` leaves open how a combination refers to players: by name or by index.
-/

namespace KifuRatings

/-- The curve from a difference of strengths to a probability of winning, and the curve
`softplus` whose negative at `-x` is the logarithm of that probability. -/
structure Link (α : Type) where
  sigmoid : α → α
  softplus : α → α

namespace Link

variable {α : Type} [Analytic α]

/-- The logistic curve, with the exponential taken of a number that is not positive. -/
def logisticSigmoid (x : α) : α :=
  if (0 : α) ≤ x then 1 / (1 + Analytic.exp (-x))
  else
    let power := Analytic.exp x
    power / (1 + power)

/-- The logarithm of `1 + e ^ x`, which cannot overflow in this form. -/
def logisticSoftplus (x : α) : α :=
  Scalar.greater x 0 + Analytic.log1p (Analytic.exp (-Scalar.abs x))

def logistic : Link α := ⟨logisticSigmoid, logisticSoftplus⟩

end Link

/-- `sigmoid` counts wins of the positive side of a combination; `gaussian` is a normal
prior around zero. -/
inductive Shape where
  | sigmoid
  | gaussian
deriving DecidableEq, Repr

/-- A combination `x` is the sum of coefficients times strengths, plus the offset. -/
structure Term (ρ α : Type) where
  combo : List (ρ × α)
  offset : α
  weight : α
  shape : Shape

namespace Term

variable {ρ α : Type} [Scalar α]

/-- The term's share of the log posterior where its combination is `x`. -/
def value (link : Link α) (term : Term ρ α) (x : α) : α :=
  match term.shape with
  | .sigmoid => -term.weight * link.softplus (-x)
  | .gaussian => -0.5 * term.weight * x * x

def slope (link : Link α) (term : Term ρ α) (x : α) : α :=
  match term.shape with
  | .sigmoid => term.weight * (1 - link.sigmoid x)
  | .gaussian => -term.weight * x

def curvature (link : Link α) (term : Term ρ α) (x : α) : α :=
  match term.shape with
  | .sigmoid =>
      let probability := link.sigmoid x
      let scaled := -term.weight * probability
      scaled * (1 - probability)
  | .gaussian => -term.weight

/-- Elo points per unit of strength: 400 points make odds of ten to one. -/
def eloPerStrength : α := 400.0 / 2.302585092994046

def centerWeight : α := 1e4

def wins (winner loser : ρ) (weight : α) : Term ρ α where
  combo := [(winner, 1), (loser, -1)]
  offset := 0
  weight := weight
  shape := .sigmoid

/-- Games between two players, of which the first won the given part. A side that won
nothing has no term. -/
def ofGames (first second : ρ) (games rate : α) : List (Term ρ α) :=
  let won := games * rate
  let lost := games * (1 - rate)
  (if 0 < won then [wins first second won] else [])
    ++ (if 0 < lost then [wins second first lost] else [])

/-- Draws the mean strength of all players to a rating, since games tell differences of
strengths only. -/
def center (players : List ρ) (elo : α) : Term ρ α :=
  let coefficient := 1 / Scalar.ofNat (max players.length 1)
  { combo := players.map fun player => (player, coefficient)
    offset := -elo / eloPerStrength
    weight := centerWeight
    shape := .gaussian }

/-- Draws of a player against an opponent with a fixed rating. They keep the rating of a
player finite who won or lost every game. -/
def anchored (player : ρ) (games elo : α) : List (Term ρ α) :=
  if games ≤ 0 then []
  else
    let offset := elo / eloPerStrength
    [{ combo := [(player, 1)], offset := -offset, weight := 0.5 * games, shape := .sigmoid },
      { combo := [(player, -1)], offset := offset, weight := 0.5 * games, shape := .sigmoid }]

end Term

end KifuRatings
