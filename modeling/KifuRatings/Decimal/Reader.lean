import KifuRatings.Decimal.Parts

/-!
# Numbers read from text

A number is read only if it fills its text. A decimal may lack the digits before or after
its point, but not both; an exponent may follow. Infinity and not-a-number have names,
in either letter case.
-/

namespace KifuRatings.Decimal

def isDigit (character : Char) : Bool := '0' ≤ character && character ≤ '9'

def digitValue (character : Char) : Nat := character.toNat - 48

def ofDigits (digits : List Char) : Nat :=
  digits.foldl (fun total digit => total * 10 + digitValue digit) 0

def splitSign : List Char → Bool × List Char
  | '-' :: rest => (true, rest)
  | '+' :: rest => (false, rest)
  | text => (false, text)

/-- `significand * 10 ^ exponent` as a double. What has more than 400 digits before the
point is infinite, and what starts more than 400 places after it is zero. -/
def scientific (significand : Nat) (exponent : Int) : Float :=
  let digits : Int := (Nat.toDigits 10 significand).length
  if significand == 0 then 0.0
  else if 400 < exponent + digits then 1.0 / 0.0
  else if exponent + digits < -400 then 0.0
  else match exponent with
    | .ofNat power => Float.ofScientific significand false power
    | .negSucc power => Float.ofScientific significand true (power + 1)

/-- A text as an exponent: a marker, a sign if need be and at least one digit. Nothing
at all is the exponent zero. -/
def readExponent? : List Char → Option Int
  | [] => some 0
  | marker :: text =>
      let (negative, digits) := splitSign text
      if (marker == 'e' || marker == 'E') && !digits.isEmpty && digits.all isDigit then
        let size : Int := ofDigits digits
        some (if negative then -size else size)
      else none

def readUnsigned? (text : List Char) : Option Float := do
  let whole := text.takeWhile isDigit
  let afterWhole := text.dropWhile isDigit
  let (places, afterPlaces) := match afterWhole with
    | '.' :: rest => (rest.takeWhile isDigit, rest.dropWhile isDigit)
    | rest => ([], rest)
  let exponent ← readExponent? afterPlaces
  if whole.isEmpty && places.isEmpty then none
  else some (scientific (ofDigits (whole ++ places)) (exponent - places.length))

def readFloat? (text : String) : Option Float :=
  let (negative, rest) := splitSign text.toList
  let magnitude :=
    let name := String.ofList (rest.map Char.toLower)
    if name == "inf" || name == "infinity" then some (1.0 / 0.0)
    else if name == "nan" then some (0.0 / 0.0)
    else readUnsigned? rest
  magnitude.map fun value => if negative then -value else value

/-- A count below 2^32, with or without a plus sign. -/
def readCount? (text : String) : Option UInt32 :=
  let digits := match text.toList with
    | '+' :: rest => rest
    | rest => rest
  let value := ofDigits digits
  if !digits.isEmpty && digits.all isDigit && value < 4294967296 then some (UInt32.ofNat value)
  else none

end KifuRatings.Decimal
