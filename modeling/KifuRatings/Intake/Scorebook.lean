import KifuRatings.Crosstable.Basic
import KifuRatings.Intake.Search
import KifuRatings.Text.Blank

/-!
# The scorebook

A scorebook holds the record files that are known and the crosstable of their games, so
the two are only ever cleared together. It also remembers whether any game was played with
a handicap or with a komi outside a given range. How a record is read is left open.
-/

namespace KifuRatings

/-- A way to read game records, with the wording of its errors. -/
structure OutcomeReader (ε : Type) where
  read : Bytes → Except ε Outcome
  message : ε → String

def OutcomeReader.gameRecord : OutcomeReader RecordError := ⟨Outcome.read, RecordError.message⟩

/-- Both ends belong to the range; what is not a number is outside. -/
structure KomiRange where
  least : Float
  greatest : Float

def KomiRange.contains (range : KomiRange) (komi : Float) : Bool :=
  range.least ≤ komi && komi ≤ range.greatest

def KomiRange.standard : KomiRange := ⟨5.5, 7.5⟩

/-- What one pass over files came to: files read, games counted, records that could not be
understood and files that could not be read. -/
structure IntakeCount where
  files : Nat
  games : Nat
  malformed : Nat
  unread : Nat
deriving DecidableEq, Repr

namespace IntakeCount

def zero : IntakeCount := ⟨0, 0, 0, 0⟩

def add (left right : IntakeCount) : IntakeCount where
  files := left.files + right.files
  games := left.games + right.games
  malformed := left.malformed + right.malformed
  unread := left.unread + right.unread

end IntakeCount

structure Scorebook where
  known : RecordFiles
  table : Crosstable
  nonstandard : Bool
  komiRange : KomiRange

/-- A scorebook after an operation, with what the operation did and reported. -/
structure Progress where
  book : Scorebook
  count : IntakeCount
  events : List Event

namespace Scorebook

variable {ε : Type}

def empty (komiRange : KomiRange) : Scorebook where
  known := RecordFiles.empty
  table := Crosstable.empty
  nonstandard := false
  komiRange := komiRange

def isNonstandard (range : KomiRange) (outcome : Outcome) : Bool :=
  outcome.handicap || !range.contains outcome.komi

def score (book : Scorebook) (outcome : Outcome) : Scorebook where
  known := book.known
  table := book.table.count outcome
  nonstandard := book.nonstandard || isNonstandard book.komiRange outcome
  komiRange := book.komiRange

def enter (reader : OutcomeReader ε) (book : Scorebook) (raw : Bytes) : Except ε Scorebook :=
  (reader.read raw).map book.score

/-- Takes in one record. A record that cannot be read changes nothing but the count of
malformed records. -/
def takeRecord (reader : OutcomeReader ε) (event : String → Event) (progress : Progress)
    (raw : Bytes) : Progress :=
  match enter reader progress.book raw with
  | .ok book => ⟨book, progress.count.add ⟨0, 1, 0, 0⟩, progress.events⟩
  | .error cause =>
      ⟨progress.book, progress.count.add ⟨0, 0, 1, 0⟩,
        progress.events ++ [event (reader.message cause)]⟩

/-- Lines end with a line feed; the last one need not. -/
def lines (content : Bytes) : List Bytes := content.splitOnP (· == 0x0A)

def isBlankLine (line : Bytes) : Bool := line.all isBlankByte

def takeLines (reader : OutcomeReader ε) (path : Path) (content : Bytes)
    (progress : Progress) : Progress :=
  (lines content).zipIdx.foldl (fun progress (line, index) =>
    if isBlankLine line then progress
    else takeRecord reader (.malformedLine path (index + 1)) progress line) progress

def takeWhole (reader : OutcomeReader ε) (path : Path) (content : Bytes)
    (progress : Progress) : Progress :=
  takeRecord reader (.malformedFile path) progress content

def takeContent (reader : OutcomeReader ε) (form : RecordForm) (path : Path) (content : Bytes)
    (progress : Progress) : Progress :=
  match form with
  | .lines => takeLines reader path content progress
  | .whole => takeWhole reader path content progress

def takeAt (reader : OutcomeReader ε) (files : FileSystem) (progress : Progress)
    (form : RecordForm) (path : Path) : Progress :=
  match files.readPath path with
  | .ok content =>
      takeContent reader form path content
        { progress with count := progress.count.add ⟨1, 0, 0, 0⟩ }
  | .error cause =>
      { progress with
        count := progress.count.add ⟨0, 0, 0, 1⟩
        events := progress.events ++ [.unreadable path cause] }

def takeFiles (reader : OutcomeReader ε) (files : FileSystem) (book : Scorebook)
    (new : RecordFiles) : Progress :=
  new.toList.zipIdx.foldl (fun progress ((form, path), index) =>
    let progress := takeAt reader files progress form path
    { progress with events := progress.events ++ [.taken (index + 1) new.size] })
    ⟨book, .zero, []⟩

def takeDirectory (reader : OutcomeReader ε) (files : FileSystem) (book : Scorebook)
    (directory : Bytes) (recursive : Bool) : Except InputError Progress := do
  let (known, new, event) ← book.known.search files directory recursive
  let progress := takeFiles reader files { book with known } new
  return { progress with events := event :: progress.events }

def takeFile (reader : OutcomeReader ε) (files : FileSystem) (book : Scorebook)
    (route : Bytes) : Except InputError Progress := do
  match ← book.known.accept files route with
  | (_, none, path) => return ⟨book, .zero, [.known path]⟩
  | (known, some form, path) =>
      return takeFiles reader files { book with known } (RecordFiles.empty.insert form path)

def takeInput (reader : OutcomeReader ε) (files : FileSystem) (book : Scorebook)
    (route : Bytes) (recursive : Bool) : Except InputError Progress :=
  if files.isDirectory route then takeDirectory reader files book route recursive
  else takeFile reader files book route

def clear (book : Scorebook) : Scorebook := empty book.komiRange

end Scorebook

end KifuRatings
