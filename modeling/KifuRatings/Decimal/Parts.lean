/-!
# Doubles taken apart

Printing needs the exact value of a double. Its 64 bits are read as a sign and an integer
mantissa times a power of two, and all further arithmetic is on natural numbers.
-/

namespace KifuRatings.Decimal

/-- A finite double has the magnitude `mantissa * 2 ^ exponent`. `narrowBelow` marks a power
of two whose lower neighbour is only half as far away as the upper one. -/
inductive Parts where
  | nan
  | infinite (negative : Bool)
  | finite (negative : Bool) (mantissa : Nat) (exponent : Int) (narrowBelow : Bool)
deriving DecidableEq, Repr

def hiddenBit : Nat := 4503599627370496

def Parts.ofBits (bits : Nat) : Parts :=
  let negative := bits / (2048 * hiddenBit) == 1
  let biased := bits / hiddenBit % 2048
  let fraction := bits % hiddenBit
  if biased == 2047 then
    if fraction == 0 then .infinite negative else .nan
  else if biased == 0 then .finite negative fraction (-1074) false
  else .finite negative (hiddenBit + fraction) (biased - 1075) (fraction == 0 && biased != 1)

def Parts.of (value : Float) : Parts := Parts.ofBits value.toBits.toNat

/-- The digits of `count * 10 ^ exponent` written out, without an exponent. A fraction keeps
as many places as the exponent asks for. -/
def positional (count : Nat) (exponent : Int) : List Char :=
  let digits := Nat.toDigits 10 count
  match exponent with
  | .ofNat zeros => if count == 0 then ['0'] else digits ++ List.replicate zeros '0'
  | .negSucc places =>
      let padded := List.replicate (places + 2 - digits.length) '0' ++ digits
      let whole := padded.length - (places + 1)
      padded.take whole ++ '.' :: padded.drop whole

def signed (negative : Bool) (text : List Char) : String :=
  String.ofList (if negative then '-' :: text else text)

def infinityText : List Char := ['i', 'n', 'f']

def nanText : String := "NaN"

end KifuRatings.Decimal
