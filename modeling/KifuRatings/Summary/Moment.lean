/-!
# Moments

A moment of universal time is written with the day before the time of day. Fractions of a
second have three, six or nine digits, the fewest that lose nothing, or none at all.
-/

namespace KifuRatings

structure Moment where
  year : Nat
  month : Nat
  day : Nat
  hour : Nat
  minute : Nat
  second : Nat
  nanosecond : Nat
deriving DecidableEq, Repr

namespace Moment

def field (width value : Nat) : String :=
  let digits := Nat.toDigits 10 value
  String.ofList (List.replicate (width - digits.length) '0' ++ digits)

def fraction (nanosecond : Nat) : String :=
  if nanosecond = 0 then ""
  else if nanosecond % 1000000 = 0 then "." ++ field 3 (nanosecond / 1000000)
  else if nanosecond % 1000 = 0 then "." ++ field 6 (nanosecond / 1000)
  else "." ++ field 9 nanosecond

def text (moment : Moment) : String :=
  field 4 moment.year ++ "-" ++ field 2 moment.month ++ "-" ++ field 2 moment.day ++ "T"
    ++ field 2 moment.hour ++ ":" ++ field 2 moment.minute ++ ":" ++ field 2 moment.second
    ++ fraction moment.nanosecond ++ "+00:00"

end Moment

end KifuRatings
