import KifuRatings.GameRecord.Basic
import KifuRatings.Text.Blank

/-!
# Properties of a root node

A record opens with a parenthesis and a semicolon. Properties follow, each an identifier
of capital letters with one or more values in brackets, until the root node ends: at the
end of the text or at a byte that starts the next node or closes the tree. What comes
after is not read. A backslash keeps the byte behind it from ending its value, and a
line break behind it disappears.
-/

namespace KifuRatings

/-- A property has at least one value; only the first carries game information. -/
structure Property where
  ident : String
  value : Bytes
  further : List Bytes
deriving DecidableEq, Repr

namespace Property

def lineFeed : UInt8 := 0x0A
def carriageReturn : UInt8 := 0x0D
def openParenthesis : UInt8 := 0x28
def closeParenthesis : UInt8 := 0x29
def semicolon : UInt8 := 0x3B
def openBracket : UInt8 := 0x5B
def backslash : UInt8 := 0x5C
def closeBracket : UInt8 := 0x5D

def isCapital (byte : UInt8) : Bool := 0x41 ≤ byte && byte ≤ 0x5A

def endsNode (byte : UInt8) : Bool :=
  byte == semicolon || byte == openParenthesis || byte == closeParenthesis

def skipBlank (bytes : Bytes) : Bytes := bytes.dropWhile isBlankByte

/-- Each byte read as the character with its number. -/
def ofCapitals (bytes : Bytes) : String :=
  String.ofList (bytes.map fun byte => Char.ofNat byte.toNat)

/-- The byte that may follow a line-break byte and still belong to the same break. -/
def breakPartner (byte : UInt8) : Option UInt8 :=
  if byte = lineFeed then some carriageReturn
  else if byte = carriageReturn then some lineFeed
  else none

def keep (byte : UInt8) (read : Option (Bytes × Bytes)) : Option (Bytes × Bytes) :=
  read.map fun (value, rest) => (byte :: value, rest)

def readValue : Bytes → Option (Bytes × Bytes)
  | [] => none
  | byte :: rest =>
      if byte = closeBracket then some ([], rest)
      else if byte = backslash then
        match rest with
        | [] => none
        | escaped :: rest =>
            match breakPartner escaped with
            | none => keep escaped (readValue rest)
            | some partner =>
                match rest with
                | [] => none
                | next :: rest =>
                    if next = partner then readValue rest else readValue (next :: rest)
      else keep byte (readValue rest)

theorem keep_eq_some {byte : UInt8} {read : Option (Bytes × Bytes)} {value rest : Bytes} :
    keep byte read = some (value, rest) ↔
      ∃ kept, read = some (kept, rest) ∧ value = byte :: kept := by
  cases read with
  | none => simp [keep]
  | some pair =>
      cases pair
      simp only [keep, Option.map_some, Option.some.injEq, Prod.mk.injEq]
      exact ⟨fun ⟨sameValue, sameRest⟩ => ⟨_, ⟨rfl, sameRest⟩, sameValue.symm⟩,
        fun ⟨_, ⟨sameKept, sameRest⟩, sameValue⟩ => ⟨sameKept ▸ sameValue.symm, sameRest⟩⟩

theorem length_of_read_value {bytes value rest : Bytes}
    (read : readValue bytes = some (value, rest)) : rest.length < bytes.length := by
  fun_induction readValue bytes generalizing value rest <;>
    simp only [keep_eq_some, Option.some.injEq, Prod.mk.injEq, reduceCtorEq,
      List.length_cons] at read ⊢ <;> grind

def readValues (ident : String) (bytes : Bytes) : Except RecordError (List Bytes × Bytes) :=
  match _opened : skipBlank bytes with
  | [] => .ok ([], [])
  | byte :: inside =>
      if byte = openBracket then
        match _closed : readValue inside with
        | none => .error (.unterminatedValue ident)
        | some (value, rest) =>
            (readValues ident rest).map fun (values, rest) => (value :: values, rest)
      else .ok ([], byte :: inside)
termination_by bytes.length
decreasing_by
  have afterValue := length_of_read_value _closed
  have afterBlank := (List.dropWhile_suffix isBlankByte (l := bytes)).length_le
  rw [← skipBlank, _opened, List.length_cons] at afterBlank
  omega

theorem length_of_read_values {ident : String} {bytes rest : Bytes} {values : List Bytes}
    (read : readValues ident bytes = .ok (values, rest)) : rest.length ≤ bytes.length := by
  fun_induction readValues ident bytes generalizing values rest with
  | case1 =>
      simp only [Except.ok.injEq, Prod.mk.injEq] at read
      simp [← read.2]
  | case2 => simp at read
  | case3 bytes inside value after closed opened induction =>
      have afterBlank := (List.dropWhile_suffix isBlankByte (l := bytes)).length_le
      rw [← skipBlank, opened, List.length_cons] at afterBlank
      have afterValue := length_of_read_value closed
      cases step : readValues ident after with
      | error cause => simp [step, Except.map] at read
      | ok result =>
          have bound := induction step
          simp only [step, Except.map, Except.ok.injEq, Prod.mk.injEq] at read
          rw [← read.2]
          omega
  | case4 bytes byte inside opened other =>
      have afterBlank := (List.dropWhile_suffix isBlankByte (l := bytes)).length_le
      rw [← skipBlank, opened] at afterBlank
      simp only [Except.ok.injEq, Prod.mk.injEq] at read
      rw [← read.2]
      exact afterBlank

def readAll (bytes : Bytes) : Except RecordError (List Property) :=
  match _started : skipBlank bytes with
  | [] => .ok []
  | byte :: rest =>
      if endsNode byte then .ok []
      else if isCapital byte then
        let ident := ofCapitals (byte :: rest.takeWhile isCapital)
        match _values : readValues ident (rest.dropWhile isCapital) with
        | .error cause => .error cause
        | .ok ([], _) => .error (.missingValue ident)
        | .ok (value :: further, after) => (readAll after).map (⟨ident, value, further⟩ :: ·)
      else .error (.invalidIdent byte)
termination_by bytes.length
decreasing_by
  have afterValues := length_of_read_values _values
  have afterIdent := (List.dropWhile_suffix isCapital (l := rest)).length_le
  have afterBlank := (List.dropWhile_suffix isBlankByte (l := bytes)).length_le
  rw [← skipBlank, _started, List.length_cons] at afterBlank
  omega

def readRoot (bytes : Bytes) : Except RecordError (List Property) :=
  match skipBlank bytes with
  | [] => .error .empty
  | opening :: rest =>
      if opening = openParenthesis then
        match skipBlank rest with
        | [] => .error .missingGameTree
        | start :: rest => if start = semicolon then readAll rest else .error .missingGameTree
      else .error .missingGameTree

/-- Where an identifier repeats, its first occurrence counts. -/
def lookup (ident : String) (properties : List Property) : Option Bytes :=
  (properties.find? (·.ident == ident)).map (·.value)

end Property

end KifuRatings
