import KifuRatings.Decimal.Reader
import KifuRatings.GameRecord.Property

/-!
# Reading a game record

Five properties of the root node carry game information: the two players, the result, the
komi and the handicap. The players have to be named; an empty or missing komi is zero, and
an empty or missing handicap is none. Errors are found in the order: root node, players,
komi, handicap.
-/

namespace KifuRatings.GameRecord

/-- A property's first value as a single line. -/
def text? (properties : List Property) (ident : String) : Option String :=
  (Property.lookup ident properties).map fun value => Text.singleLine (Utf8.decodeLossy value)

def requiredText (properties : List Property) (ident : String) : Except RecordError String :=
  match text? properties ident with
  | some text => .ok text
  | none => .error (.missingProperty ident)

/-- Only the first letter of a result tells the winner. -/
def winnerOf (result : String) : Option Color :=
  match result.toList with
  | 'B' :: _ | 'b' :: _ => some .black
  | 'W' :: _ | 'w' :: _ => some .white
  | _ => none

def komiOf (text : String) : Except RecordError Float :=
  if text.isEmpty then .ok 0.0
  else match Decimal.readFloat? text with
    | some komi => if komi.isFinite then .ok komi else .error (.invalidKomi text)
    | none => .error (.invalidKomi text)

def handicapOf (text : String) : Except RecordError (Option UInt32) :=
  if text.isEmpty then .ok none
  else match Decimal.readCount? text with
    | some stones => .ok (some stones)
    | none => .error (.invalidHandicap text)

def ofProperties (properties : List Property) : Except RecordError GameRecord := do
  let black ← requiredText properties "PB"
  let white ← requiredText properties "PW"
  let komi ← komiOf ((text? properties "KM").getD "")
  let handicap ← handicapOf ((text? properties "HA").getD "")
  return { black, white, winner := (text? properties "RE").bind winnerOf, handicap, komi }

def read (raw : Bytes) : Except RecordError GameRecord := do
  ofProperties (← Property.readRoot raw)

end KifuRatings.GameRecord
