import KifuRatings.Decimal.Parts

/-!
# The fewest digits that read back

The decimals that read back as a given double form an interval around it, whose ends
belong to it iff the mantissa is even. Decimal grids are tried from coarse to fine. If a
grid meets the interval, then one of the two grid points next to the double lies in it, so
the first grid with such a point gives the fewest digits; of two points the nearer is
taken, and of two equally near ones the upper.
-/

namespace KifuRatings.Decimal

/-- Twenty grids below the start always reach one finer than the gap between two doubles. -/
def gridsTried : Nat := 24

/-- Distances are measured in quarters of the double's unit in the last place, so the
interval's ends are integers. -/
structure Interval where
  low : Nat
  middle : Nat
  high : Nat
  closed : Bool
  /-- The measuring unit is two to this power. -/
  exponent : Int

def Interval.around (mantissa : Nat) (exponent : Int) (narrowBelow : Bool) : Interval where
  low := 4 * mantissa - (if narrowBelow then 1 else 2)
  middle := 4 * mantissa
  high := 4 * mantissa + 2
  closed := mantissa % 2 == 0
  exponent := exponent - 2

/-- The multiple of `10 ^ grid` in the interval that is nearest to its middle. -/
def Interval.onGrid? (interval : Interval) (grid : Int) : Option Nat :=
  let step := Nat.pow 10 grid.toNat * Nat.pow 2 (-interval.exponent).toNat
  let unit := Nat.pow 2 interval.exponent.toNat * Nat.pow 10 (-grid).toNat
  let middle := interval.middle * unit
  let inside (point : Nat) : Bool :=
    if interval.closed then
      interval.low * unit ≤ point * step && point * step ≤ interval.high * unit
    else
      interval.low * unit < point * step && point * step < interval.high * unit
  let below := middle / step
  let above := below + 1
  if inside above && (!inside below || above * step - middle ≤ middle - below * step) then
    some above
  else if inside below then some below
  else none

def Interval.coarsest (interval : Interval) : Nat → Int → Nat × Int
  | 0, grid => (0, grid)
  | tries + 1, grid =>
      match interval.onGrid? grid with
      | some count => (count, grid)
      | none => interval.coarsest tries (grid - 1)

/-- A power of ten that is not below the interval: `30103 / 100000` is a little more than
the decimal logarithm of two, and `30102 / 100000` a little less. -/
def Interval.startGrid (interval : Interval) : Int :=
  let width : Int := Nat.log2 interval.high + 1 + interval.exponent
  if 0 ≤ width then width * 30103 / 100000 + 1 else width * 30102 / 100000 + 1

def shortestDigits (mantissa : Nat) (exponent : Int) (narrowBelow : Bool) : Nat × Int :=
  let interval := Interval.around mantissa exponent narrowBelow
  interval.coarsest gridsTried interval.startGrid

/-- Numbers are written in full whatever their size, whole ones without a point; the sign of
zero is kept. -/
def shortest (value : Float) : String :=
  match Parts.of value with
  | .nan => nanText
  | .infinite negative => signed negative infinityText
  | .finite negative mantissa exponent narrowBelow =>
      if mantissa == 0 then signed negative ['0']
      else
        let (count, grid) := shortestDigits mantissa exponent narrowBelow
        signed negative (positional count grid)

end KifuRatings.Decimal
