import KifuRatings.Toml.Table
import KifuRatings.Toml.Text

/-!
# Numbers, dates and words in TOML

These values are written without quotes, as an unbroken run of letters, digits and a few
signs. A run is read whole or not at all; only between a date and a time there may be a
space.
-/

namespace KifuRatings.Toml

/-- Digits with single underscores between them, less the underscores. -/
def ungroup (isDigit : Char → Bool) (text : List Char) : Option (List Char) :=
  let groups := text.splitOnP (· == '_')
  if groups.all fun group => !group.isEmpty && group.all isDigit then some groups.flatten else none

def readWhole? (text : List Char) : Option (List Char) := do
  let digits ← ungroup Decimal.isDigit text
  if digits.length = 1 ∨ digits.head? ≠ some '0' then some digits else none

def ofRadix (radix : Nat) (digits : List Char) : Nat :=
  digits.foldl (fun total digit => total * radix + (hexValue? digit).getD 0) 0

def isRadixDigit (radix : Nat) (digit : Char) : Bool := (hexValue? digit).any (· < radix)

def readRadix? (radix : Nat) (text : List Char) : Option Int := do
  return ofRadix radix (← ungroup (isRadixDigit radix) text)

/-- Integers have 64 bits. A radix is told by a mark and admits no sign. -/
def readInteger? (text : List Char) : Option Int := do
  let value ← match text with
    | '0' :: 'x' :: digits => readRadix? 16 digits
    | '0' :: 'o' :: digits => readRadix? 8 digits
    | '0' :: 'b' :: digits => readRadix? 2 digits
    | text => do
        let (negative, digits) := Decimal.splitSign text
        let size : Int := Decimal.ofDigits (← readWhole? digits)
        pure (if negative then -size else size)
  if -0x8000000000000000 ≤ value ∧ value < 0x8000000000000000 then some value else none

/-- A decimal with places or an exponent, or with both. One above the largest double is
refused. -/
def readDecimal? (text : List Char) : Option Float := do
  let (negative, unsigned) := Decimal.splitSign text
  let isGrouped := fun character => Decimal.isDigit character || character == '_'
  let whole ← readWhole? (unsigned.takeWhile isGrouped)
  let (places, power) ← match unsigned.dropWhile isGrouped with
    | '.' :: rest => do
        let places ← ungroup Decimal.isDigit (rest.takeWhile isGrouped)
        pure (places, rest.dropWhile isGrouped)
    | [] => none
    | rest => pure ([], rest)
  let exponent ← match power with
    | [] => pure 0
    | mark :: rest => do
        let (below, digits) := Decimal.splitSign rest
        let size : Int := Decimal.ofDigits (← ungroup Decimal.isDigit digits)
        if mark == 'e' || mark == 'E' then pure (if below then -size else size) else none
  let value := Decimal.scientific (Decimal.ofDigits (whole ++ places)) (exponent - places.length)
  if negative then some (-value) else if value.isInf then none else some value

def readSpecial? (text : List Char) : Option Float :=
  let (negative, name) := Decimal.splitSign text
  let value : Option Float :=
    if name = ['i', 'n', 'f'] then some (1.0 / 0.0)
    else if name = ['n', 'a', 'n'] then some (0.0 / 0.0)
    else none
  value.map fun value => if negative then -value else value

def readPair? (least greatest : Nat) (tens units : Char) : Option Nat :=
  let value := Decimal.ofDigits [tens, units]
  if Decimal.isDigit tens && Decimal.isDigit units && least ≤ value && value ≤ greatest then
    some value
  else none

def isLeapYear (year : Nat) : Bool := year % 4 == 0 && (year % 100 != 0 || year % 400 == 0)

def daysIn (year month : Nat) : Nat :=
  if month = 2 then (if isLeapYear year then 29 else 28)
  else if month = 4 ∨ month = 6 ∨ month = 9 ∨ month = 11 then 30
  else 31

def afterDate? : List Char → Option (List Char)
  | a :: b :: c :: d :: '-' :: e :: f :: '-' :: g :: h :: rest => do
      if !([a, b, c, d].all Decimal.isDigit) then none
      let month ← readPair? 1 12 e f
      let _ ← readPair? 1 (daysIn (Decimal.ofDigits [a, b, c, d]) month) g h
      return rest
  | _ => none

def afterMinutes? : List Char → Option (List Char)
  | a :: b :: ':' :: c :: d :: rest => do
      let _ ← readPair? 0 23 a b
      let _ ← readPair? 0 59 c d
      return rest
  | _ => none

/-- A time of day at the start of a text, and what follows it. A minute may have a leap
second, and a second any number of places. -/
def afterTime? (text : List Char) : Option (List Char) := do
  match ← afterMinutes? text with
  | ':' :: e :: f :: rest =>
      let _ ← readPair? 0 60 e f
      match rest with
      | '.' :: places =>
          if (places.takeWhile Decimal.isDigit).isEmpty then none
          else some (places.dropWhile Decimal.isDigit)
      | rest => some rest
  | _ => none

/-- Whether a text is nothing or a distance from universal time. -/
def isOffset : List Char → Bool
  | [] | ['Z'] | ['z'] => true
  | '+' :: rest | '-' :: rest => afterMinutes? rest = some []
  | _ => false

def isZonedTime (text : List Char) : Bool := (afterTime? text).any isOffset

def isTime (text : List Char) : Bool := afterTime? text = some []

def isDate (text : List Char) : Bool := afterDate? text = some []

def isDateTime (text : List Char) : Bool :=
  match afterDate? text with
  | some (mark :: time) => (mark == 'T' || mark == 't') && isZonedTime time
  | _ => false

def ofRun? (run : List Char) : Option Item :=
  if run = ['t', 'r', 'u', 'e'] then some (.boolean true)
  else if run = ['f', 'a', 'l', 's', 'e'] then some (.boolean false)
  else if isDate run || isDateTime run || isTime run then some (.moment (String.ofList run))
  else
    ((readSpecial? run <|> readDecimal? run).map Item.double)
      <|> (readInteger? run).map Item.integer

def isRun (character : Char) : Bool :=
  isBare character || character == '+' || character == '.' || character == ':'

/-- A value without quotes, with the time of day behind a date if there is one. -/
def readRun : Reader Item := fun text => do
  let run := text.takeWhile isRun
  let rest := text.dropWhile isRun
  let item ← ofRun? run
  match rest with
  | ' ' :: after =>
      let time := after.takeWhile isRun
      if isDate run && !time.isEmpty then
        if isZonedTime time then
          some (.moment (String.ofList (run ++ ' ' :: time)), after.dropWhile isRun)
        else none
      else some (item, rest)
  | _ => some (item, rest)

end KifuRatings.Toml
