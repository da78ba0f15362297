import KifuRatings.Files.Path

/-!
# Record files

The extension of a file's name tells whether the file holds one game record or one on
each line. Sets of record files keep the two forms apart.
-/

namespace KifuRatings

inductive RecordForm where
  /-- One record on each line. -/
  | lines
  /-- The whole file is one record. -/
  | whole
deriving DecidableEq, Repr

namespace RecordForm

/-- What stands behind the last dot of a name. A dot at the start of a name begins no
extension. -/
def extension? (name : Bytes) : Option Bytes :=
  let reversed := name.reverse
  match reversed.dropWhile (· != 0x2E) with
  | _ :: _ :: _ => some (reversed.takeWhile (· != 0x2E)).reverse
  | _ => none

def lowerByte (byte : UInt8) : UInt8 := if 0x41 ≤ byte && byte ≤ 0x5A then byte + 0x20 else byte

def extension : RecordForm → Bytes
  | .lines => "sgfs"
  | .whole => "sgf"

def ofName (name : Bytes) : Option RecordForm := do
  let extension ← extension? name
  let lower := extension.map lowerByte
  if lower = RecordForm.lines.extension then some .lines
  else if lower = RecordForm.whole.extension then some .whole
  else none

def ofRoute (route : Bytes) : Option RecordForm :=
  (Route.lastName? (Route.ofBytes route)).bind ofName

end RecordForm

structure RecordFiles where
  lines : PathSet
  whole : PathSet
deriving DecidableEq

namespace RecordFiles

def empty : RecordFiles := ⟨∅, ∅⟩

def insert (files : RecordFiles) (form : RecordForm) (path : Path) : RecordFiles :=
  match form with
  | .lines => { files with lines := files.lines.insert path }
  | .whole => { files with whole := files.whole.insert path }

def contains (files : RecordFiles) (path : Path) : Bool :=
  files.lines.contains path || files.whole.contains path

def size (files : RecordFiles) : Nat := files.lines.size + files.whole.size

def union (left right : RecordFiles) : RecordFiles :=
  ⟨left.lines.insertMany right.lines.toList, left.whole.insertMany right.whole.toList⟩

/-- The files of lines, then those that are one record, each in the order of paths. -/
def toList (files : RecordFiles) : List (RecordForm × Path) :=
  files.lines.toList.map (fun path => (.lines, path))
    ++ files.whole.toList.map (fun path => (.whole, path))

end RecordFiles

end KifuRatings
