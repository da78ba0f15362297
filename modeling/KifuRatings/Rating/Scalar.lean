/-!
# Arithmetic for ratings

Ratings are computed over any type with the operations below, always in one fixed order
of evaluation. Doubles are the type to compute with; in them an operation may round, a
comparison with not-a-number is false, and `0 - 0` and `0` may differ in sign. Statements
about exact arithmetic take the real or the rational numbers instead.
-/

namespace KifuRatings

/-- The operations of arithmetic together with the comparisons that the fit decides by. -/
class Scalar (α : Type) extends Zero α, One α, Add α, Sub α, Mul α, Div α, Neg α, LT α, LE α,
    BEq α, OfScientific α where
  decidableLT : DecidableLT α
  decidableLE : DecidableLE α
  ofNat : Nat → α
  abs : α → α
  /-- The greater of two values, or the one that is a number. -/
  greater : α → α → α
  /-- A comparison without incomparable values: not-a-number is above all numbers. -/
  order : α → α → Ordering

attribute [reducible, instance] Scalar.decidableLT Scalar.decidableLE

class Analytic (α : Type) extends Scalar α where
  exp : α → α
  /-- The logarithm of one more than the argument. -/
  log1p : α → α
  sqrt : α → α

namespace Scalar

variable {α : Type} [Scalar α]

/-- A sum from left to right, starting with zero. -/
def sum (values : List α) : α := values.foldl (· + ·) 0

def greatestAbs (values : List α) : α :=
  values.foldl (fun greatest value => greater greatest (abs value)) 0

def lastGreatest {ι : Type} (key : ι → α) (default : ι) (candidates : List ι) : ι :=
  match candidates with
  | [] => default
  | first :: rest =>
      rest.foldl (fun best candidate =>
        if order (key best) (key candidate) = .gt then best else candidate) first

end Scalar

namespace Double

/-- Doubles in the order of their values, with `-0` below `0`. -/
def rank (value : Float) : Int :=
  if value.isNaN then 0x8000000000000000
  else
    let bits := value.toBits.toNat
    if bits < 0x8000000000000000 then bits else 0x7FFFFFFFFFFFFFFF - bits

def greater (left right : Float) : Float :=
  if left.isNaN then right
  else if right.isNaN then left
  else if left < right then right
  else left

/-- The logarithm of the rounded sum `1 + x`, less the part of the sum that rounding added.
No digits are lost near zero. -/
def log1p (value : Float) : Float :=
  let shifted := 1.0 + value
  if shifted.isFinite then shifted.log - (shifted - 1.0 - value) / shifted else shifted

instance : Analytic Float where
  decidableLT := inferInstance
  decidableLE := inferInstance
  ofNat := Float.ofNat
  abs := Float.abs
  greater := greater
  order := fun left right => compare (rank left) (rank right)
  exp := Float.exp
  log1p := log1p
  sqrt := Float.sqrt

end Double

end KifuRatings
