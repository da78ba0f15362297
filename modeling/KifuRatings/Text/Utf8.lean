/-!
# UTF-8 with every malformed part marked

A transducer reads one byte at a time and keeps what the open sequence still owes. A
sequence that cannot go on yields one mark, and the byte that broke it is read again as
a first byte, so one mark stands for one maximal malformed part. The main statement is
`decode_from_encode`: text that was encoded comes back without a mark.
-/

namespace KifuRatings

abbrev Bytes := List UInt8

namespace Utf8

/-- An open sequence: the next byte must lie between `low` and `high`, and `further`
more continuation bytes follow it. `scalar` collects the bits read so far. -/
structure Pending where
  further : Nat
  low : Nat
  high : Nat
  scalar : Nat
deriving DecidableEq, Repr

/-- A byte read while no sequence is open. The bounds on the second byte leave out the
overlong forms, the surrogates and what lies beyond U+10FFFF. -/
def first (byte : UInt8) : List (Option Char) × Option Pending :=
  let value := byte.toNat
  if value ≤ 0x7F then ([some (Char.ofNat value)], none)
  else if value ≤ 0xC1 then ([none], none)
  else if value ≤ 0xDF then ([], some ⟨0, 0x80, 0xBF, value - 0xC0⟩)
  else if value = 0xE0 then ([], some ⟨1, 0xA0, 0xBF, 0⟩)
  else if value = 0xED then ([], some ⟨1, 0x80, 0x9F, 0xD⟩)
  else if value ≤ 0xEF then ([], some ⟨1, 0x80, 0xBF, value - 0xE0⟩)
  else if value = 0xF0 then ([], some ⟨2, 0x90, 0xBF, 0⟩)
  else if value ≤ 0xF3 then ([], some ⟨2, 0x80, 0xBF, value - 0xF0⟩)
  else if value = 0xF4 then ([], some ⟨2, 0x80, 0x8F, 4⟩)
  else ([none], none)

/-- One byte: what it completes, `none` being a mark, and the sequence open after it. -/
def feed : Option Pending → UInt8 → List (Option Char) × Option Pending
  | none, byte => first byte
  | some pending, byte =>
      let value := byte.toNat
      if pending.low ≤ value ∧ value ≤ pending.high then
        let scalar := pending.scalar * 64 + (value - 0x80)
        match pending.further with
        | 0 => ([some (Char.ofNat scalar)], none)
        | further + 1 => ([], some ⟨further, 0x80, 0xBF, scalar⟩)
      else (none :: (first byte).1, (first byte).2)

/-- Input that ends inside a sequence ends with a mark. -/
def decodeFrom : Option Pending → Bytes → List (Option Char)
  | none, [] => []
  | some _, [] => [none]
  | state, byte :: rest => (feed state byte).1 ++ decodeFrom (feed state byte).2 rest

def replacement : Char := '\uFFFD'

def decodeLossy (bytes : Bytes) : String :=
  String.ofList ((decodeFrom none bytes).map (·.getD replacement))

def decode? (bytes : Bytes) : Option String :=
  ((decodeFrom none bytes).mapM id).map String.ofList

def encodeChar (character : Char) : Bytes :=
  let value := character.toNat
  if value ≤ 0x7F then [UInt8.ofNat value]
  else if value ≤ 0x7FF then
    [UInt8.ofNat (0xC0 + value / 64), UInt8.ofNat (0x80 + value % 64)]
  else if value ≤ 0xFFFF then
    [UInt8.ofNat (0xE0 + value / 4096), UInt8.ofNat (0x80 + value / 64 % 64),
      UInt8.ofNat (0x80 + value % 64)]
  else
    [UInt8.ofNat (0xF0 + value / 262144), UInt8.ofNat (0x80 + value / 4096 % 64),
      UInt8.ofNat (0x80 + value / 64 % 64), UInt8.ofNat (0x80 + value % 64)]

def encode (text : String) : Bytes := text.toList.flatMap encodeChar

theorem decode_from_cons (state : Option Pending) (byte : UInt8) (rest : Bytes) :
    decodeFrom state (byte :: rest) =
      (feed state byte).1 ++ decodeFrom (feed state byte).2 rest := by
  cases state <;> rfl

theorem decode_from_end {low high scalar value : Nat} {rest : Bytes}
    (bounds : low ≤ value ∧ value ≤ high) (isByte : value < 256) :
    decodeFrom (some ⟨0, low, high, scalar⟩) (UInt8.ofNat value :: rest) =
      some (Char.ofNat (scalar * 64 + (value - 0x80))) :: decodeFrom none rest := by
  have read : (UInt8.ofNat value).toNat = value := UInt8.toNat_ofNat_of_lt' isByte
  rw [decode_from_cons]
  simp [feed, read, bounds]

theorem decode_from_middle {further low high scalar value : Nat} {rest : Bytes}
    (bounds : low ≤ value ∧ value ≤ high) (isByte : value < 256) :
    decodeFrom (some ⟨further + 1, low, high, scalar⟩) (UInt8.ofNat value :: rest) =
      decodeFrom (some ⟨further, 0x80, 0xBF, scalar * 64 + (value - 0x80)⟩) rest := by
  have read : (UInt8.ofNat value).toNat = value := UInt8.toNat_ofNat_of_lt' isByte
  rw [decode_from_cons]
  simp [feed, read, bounds]

theorem decode_from_ascii {value : Nat} {rest : Bytes} (ascii : value ≤ 0x7F) :
    decodeFrom none (UInt8.ofNat value :: rest) =
      some (Char.ofNat value) :: decodeFrom none rest := by
  have isByte : value < 256 := by omega
  have read : (UInt8.ofNat value).toNat = value := UInt8.toNat_ofNat_of_lt' isByte
  rw [decode_from_cons]
  simp [feed, first, read, ascii]

theorem decode_from_lead {value : Nat} {rest : Bytes} (lower : 0xC1 < value) (upper : value ≤ 0xF4) :
    decodeFrom none (UInt8.ofNat value :: rest) =
      decodeFrom (some (if value ≤ 0xDF then ⟨0, 0x80, 0xBF, value - 0xC0⟩
        else if value ≤ 0xEF then
          ⟨1, if value = 0xE0 then 0xA0 else 0x80, if value = 0xED then 0x9F else 0xBF,
            value - 0xE0⟩
        else
          ⟨2, if value = 0xF0 then 0x90 else 0x80, if value = 0xF4 then 0x8F else 0xBF,
            value - 0xF0⟩)) rest := by
  have isByte : value < 256 := by omega
  have read : (UInt8.ofNat value).toNat = value := UInt8.toNat_ofNat_of_lt' isByte
  rw [decode_from_cons]
  simp only [feed, first, read]
  grind

theorem decode_from_encode_char (character : Char) (rest : Bytes) :
    decodeFrom none (encodeChar character ++ rest) = some character :: decodeFrom none rest := by
  have valid : character.toNat < 0xD800 ∨ (0xDFFF < character.toNat ∧ character.toNat < 0x110000) :=
    character.valid
  have back : Char.ofNat character.toNat = character := Char.ofNat_toNat character
  unfold encodeChar
  generalize character.toNat = value at valid back ⊢
  subst back
  simp only
  split
  · exact decode_from_ascii ‹_›
  split
  · rw [List.cons_append, decode_from_lead (by omega) (by omega), if_pos (by omega),
      List.cons_append, decode_from_end (by omega) (by omega), List.nil_append]
    refine congrArg (fun scalar => some (Char.ofNat scalar) :: decodeFrom none rest) ?_
    omega
  split
  · rw [List.cons_append, decode_from_lead (by omega) (by omega), if_neg (by omega),
      if_pos (by omega), List.cons_append, decode_from_middle (by grind) (by omega),
      List.cons_append, decode_from_end (by omega) (by omega), List.nil_append]
    refine congrArg (fun scalar => some (Char.ofNat scalar) :: decodeFrom none rest) ?_
    omega
  · rw [List.cons_append, decode_from_lead (by omega) (by omega), if_neg (by omega),
      if_neg (by omega), List.cons_append, decode_from_middle (by grind) (by omega),
      List.cons_append, decode_from_middle (by omega) (by omega),
      List.cons_append, decode_from_end (by omega) (by omega), List.nil_append]
    refine congrArg (fun scalar => some (Char.ofNat scalar) :: decodeFrom none rest) ?_
    omega

theorem decode_from_encode (text : List Char) (rest : Bytes) :
    decodeFrom none (text.flatMap encodeChar ++ rest) =
      text.map some ++ decodeFrom none rest := by
  induction text with
  | nil => rfl
  | cons character others induction =>
      rw [List.flatMap_cons, List.append_assoc, decode_from_encode_char, induction]
      rfl

theorem decode_lossy_encode (text : String) : decodeLossy (encode text) = text := by
  have read := decode_from_encode text.toList []
  rw [List.append_nil] at read
  rw [decodeLossy, encode, read]
  simp [decodeFrom, Function.comp_def]

end Utf8

end KifuRatings
