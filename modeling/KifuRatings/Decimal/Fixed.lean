import KifuRatings.Decimal.Parts

/-!
# A fixed number of decimal places

The exact value of a double is rounded once, and a half goes to the even neighbour.
-/

namespace KifuRatings.Decimal

def roundHalfEven (numerator denominator : Nat) : Nat :=
  let quotient := numerator / denominator
  let twice := 2 * (numerator % denominator)
  if twice < denominator || (twice == denominator && quotient % 2 == 0) then quotient
  else quotient + 1

/-- The sign of a number is kept even where it rounds to zero. -/
def fixed (places : Nat) (value : Float) : String :=
  match Parts.of value with
  | .nan => nanText
  | .infinite negative => signed negative infinityText
  | .finite negative mantissa exponent _ =>
      let numerator := mantissa * Nat.pow 2 exponent.toNat * Nat.pow 10 places
      let count := roundHalfEven numerator (Nat.pow 2 (-exponent).toNat)
      signed negative (positional count (-(places : Int)))

end KifuRatings.Decimal
