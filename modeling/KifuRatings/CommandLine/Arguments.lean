import KifuRatings.Decimal.Reader
import KifuRatings.Files.Path

/-!
# Command-line arguments

Options have a long name, and some a letter; an option's value stands in the next argument
or is attached. Each option may be given once. What starts with a hyphen is an option
unless it is a single hyphen, a negative rating or comes after two hyphens. Arguments are
read from left to right: asking for help ends the reading, and so does the first mistake. Inputs
and files may have any bytes in their names; numbers and names of options have to be text.
-/

namespace KifuRatings

structure Arguments where
  inputs : List Bytes
  recursive : Bool
  prior : Option Float
  config : Option Bytes
  virtualDraws : Option Float
  json : Option Bytes

namespace Arguments

def none : Arguments := ⟨[], false, .none, .none, .none, .none⟩

inductive ValueOption where
  | prior
  | config
  | virtualDraws
  | json
deriving DecidableEq, Repr

inductive Flag where
  | recursive
  | help
deriving DecidableEq, Repr

/-- What is asked for. A mistake has no cause: every one of them is answered alike. -/
inductive Request where
  | run (arguments : Arguments)
  | help
  | mistake

def longName? : String → Option (Flag ⊕ ValueOption)
  | "recursive" => some (.inl .recursive)
  | "help" => some (.inl .help)
  | "prior" => some (.inr .prior)
  | "config" => some (.inr .config)
  | "virtual-draws" => some (.inr .virtualDraws)
  | "json" => some (.inr .json)
  | _ => .none

def letter? (letter : UInt8) : Option (Flag ⊕ ValueOption) :=
  if letter = 0x72 then some (.inl .recursive)
  else if letter = 0x68 then some (.inl .help)
  else if letter = 0x70 then some (.inr .prior)
  else if letter = 0x63 then some (.inr .config)
  else .none

/-- A first value for an option; a second one is a mistake. -/
def once {β : Type} (old new : Option β) : Option (Option β) :=
  match old, new with
  | .none, some value => some (some value)
  | _, _ => .none

def fileName? (value : Bytes) : Option Bytes := if value.isEmpty then .none else some value

def number? (value : Bytes) : Option Float := (Utf8.decode? value).bind Decimal.readFloat?

def setValue (arguments : Arguments) (name : ValueOption) (value : Bytes) : Option Arguments :=
  match name with
  | .prior => do return { arguments with prior := ← once arguments.prior (number? value) }
  | .config => do return { arguments with config := ← once arguments.config (fileName? value) }
  | .virtualDraws => do
      return { arguments with virtualDraws := ← once arguments.virtualDraws (number? value) }
  | .json => do return { arguments with json := ← once arguments.json (fileName? value) }

def addInput (arguments : Arguments) (value : Bytes) : Option Arguments := do
  return { arguments with inputs := arguments.inputs ++ [← fileName? value] }

/-- Digits with at most one point behind a digit or more, and an exponent without a sign. -/
def isUnsignedNumber (text : List Char) : Bool :=
  let isPlain := fun digits : List Char => digits.all Decimal.isDigit
  let mantissa := text.takeWhile (· != 'e')
  let exponent := text.dropWhile (· != 'e')
  let isMantissa := match mantissa.splitOnP (· == '.') with
    | [whole] => isPlain whole
    | [whole, places] => !whole.isEmpty && isPlain whole && isPlain places
    | _ => false
  let isExponent := match exponent with
    | [] => true
    | _ :: digits => !mantissa.isEmpty && !digits.isEmpty && isPlain digits
  isMantissa && isExponent

def hyphen : UInt8 := 0x2D

def equalsSign : UInt8 := 0x3D

def canBeValue (name : ValueOption) (argument : Bytes) : Bool :=
  match argument with
  | [] | [_] => true
  | first :: rest =>
      first != hyphen
        || (name = .prior && (Utf8.decode? rest).any fun text => isUnsignedNumber text.toList)

/-- The state between two arguments: an option may be waiting for its value. -/
structure Reading where
  arguments : Arguments
  waiting : Option ValueOption

inductive Step where
  | next (reading : Reading)
  | help
  | mistake

def proceed (arguments : Option Arguments) : Step :=
  match arguments with
  | some arguments => .next ⟨arguments, .none⟩
  | .none => .mistake

def setFlag (arguments : Arguments) : Flag → Step
  | .help => .help
  | .recursive =>
      if arguments.recursive then .mistake
      else .next ⟨{ arguments with recursive := true }, .none⟩

/-- An option by its long name, with a value behind an equals sign if there is one. -/
def readLong (arguments : Arguments) (option : Bytes) : Step :=
  let name := Utf8.decode? (option.takeWhile (· != equalsSign))
  match name.bind longName?, option.dropWhile (· != equalsSign) with
  | some (.inl flag), [] => setFlag arguments flag
  | some (.inl _), _ :: _ => .mistake
  | some (.inr option), [] => .next ⟨arguments, some option⟩
  | some (.inr option), _ :: value => proceed (arguments.setValue option value)
  | .none, _ => .mistake

/-- Options by their letters. What follows the letter of an option that takes a value is
that value, without an equals sign in front. -/
def readLetters (arguments : Arguments) : Bytes → Step
  | [] => .next ⟨arguments, .none⟩
  | letter :: rest =>
      match letter? letter with
      | some (.inl flag) =>
          match setFlag arguments flag with
          | .next reading => readLetters reading.arguments rest
          | step => step
      | some (.inr option) =>
          match rest with
          | [] => .next ⟨arguments, some option⟩
          | first :: value =>
              let value := if first = equalsSign then value else first :: value
              proceed (arguments.setValue option value)
      | .none => .mistake

def readArgument (reading : Reading) (argument : Bytes) : Step :=
  match reading.waiting with
  | some option =>
      if canBeValue option argument then proceed (reading.arguments.setValue option argument)
      else .mistake
  | .none =>
      match argument with
      | first :: second :: rest =>
          if first != hyphen then proceed (reading.arguments.addInput argument)
          else if second = hyphen then readLong reading.arguments rest
          else readLetters reading.arguments (second :: rest)
      | _ => proceed (reading.arguments.addInput argument)

def readFrom (reading : Reading) : List Bytes → Request
  | [] => if reading.waiting.isSome then .mistake else .run reading.arguments
  | argument :: rest =>
      if argument = [hyphen, hyphen] then
        match reading.waiting, rest.foldlM addInput reading.arguments with
        | .none, some arguments => .run arguments
        | _, _ => .mistake
      else
        match readArgument reading argument with
        | .next reading => readFrom reading rest
        | .help => .help
        | .mistake => .mistake

def read (arguments : List Bytes) : Request := readFrom ⟨.none, .none⟩ arguments

end Arguments

end KifuRatings
