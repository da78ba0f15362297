import KifuRatings.Decimal.Reader

/-!
# Text in TOML

Text stands in single quotes as it is, or in double quotes with escapes; three quotes
enclose text of several lines. Readers take the characters behind the opening quote and
give what they read together with the rest. Every line ends with a line feed here.
-/

namespace KifuRatings.Toml

abbrev Reader (β : Type) := List Char → Option (β × List Char)

def isShown (character : Char) : Bool :=
  character == '\t' || (0x20 ≤ character.toNat && character.toNat != 0x7F)

def isSpace (character : Char) : Bool := character == ' ' || character == '\t'

def skipSpaces (text : List Char) : List Char := text.dropWhile isSpace

def skipLayout (text : List Char) : List Char :=
  text.dropWhile fun character => isSpace character || character == '\n'

def hexValue? (digit : Char) : Option Nat :=
  if Decimal.isDigit digit then some (digit.toNat - 48)
  else if 'a' ≤ digit && digit ≤ 'f' then some (digit.toNat - 87)
  else if 'A' ≤ digit && digit ≤ 'F' then some (digit.toNat - 55)
  else none

/-- The character with a number in hexadecimal; surrogates are no characters. -/
def scalar? (digits : List Char) : Option Char := do
  let value ← digits.foldlM (fun total digit => do return total * 16 + (← hexValue? digit)) 0
  if value < 0xD800 || (0xDFFF < value && value < 0x110000) then some (Char.ofNat value) else none

def shortEscape? : Char → Option Char
  | 'b' => some (Char.ofNat 8)
  | 't' => some '\t'
  | 'n' => some '\n'
  | 'f' => some (Char.ofNat 12)
  | 'r' => some '\r'
  | '"' => some '"'
  | '\\' => some '\\'
  | _ => none

def readEscape : Reader Char
  | 'u' :: a :: b :: c :: d :: rest => do return (← scalar? [a, b, c, d], rest)
  | 'U' :: a :: b :: c :: d :: e :: f :: g :: h :: rest => do
      return (← scalar? [a, b, c, d, e, f, g, h], rest)
  | letter :: rest => do return (← shortEscape? letter, rest)
  | [] => none

theorem length_of_read_escape {text rest : List Char} {character : Char}
    (read : readEscape text = some (character, rest)) : rest.length < text.length := by
  unfold readEscape at read
  split at read
  all_goals
    simp only [bind, Option.bind_eq_some_iff, pure, Option.some.injEq, Prod.mk.injEq,
      reduceCtorEq] at read
    try
      obtain ⟨_, _, _, same⟩ := read
      subst same
      simp only [List.length_cons]
      omega

def push (character : Char) (read : Option (List Char × List Char)) :
    Option (List Char × List Char) :=
  read.map fun (text, rest) => (character :: text, rest)

def readBasic : Reader (List Char)
  | [] => none
  | '"' :: rest => some ([], rest)
  | '\\' :: rest =>
      match _read : readEscape rest with
      | some (character, rest) => push character (readBasic rest)
      | none => none
  | character :: rest => if isShown character then push character (readBasic rest) else none
termination_by text => text.length
decreasing_by
  · have := length_of_read_escape _read
    simp only [List.length_cons]
    omega
  · simp

def readLiteral : Reader (List Char)
  | [] => none
  | '\'' :: rest => some ([], rest)
  | character :: rest => if isShown character then push character (readLiteral rest) else none

/-- Lines in three double quotes. Up to two quotes may stand before the closing ones. A
backslash at the end of a line takes away the line feed and all space after it. -/
def readBasicLines : Reader (List Char)
  | [] => none
  | '"' :: '"' :: '"' :: '"' :: '"' :: rest => some (['"', '"'], rest)
  | '"' :: '"' :: '"' :: '"' :: rest => some (['"'], rest)
  | '"' :: '"' :: '"' :: rest => some ([], rest)
  | '\\' :: rest =>
      if (skipSpaces rest).head? = some '\n' then readBasicLines (skipLayout rest)
      else
        match _read : readEscape rest with
        | some (character, rest) => push character (readBasicLines rest)
        | none => none
  | character :: rest =>
      if isShown character || character == '\n' then push character (readBasicLines rest)
      else none
termination_by text => text.length
decreasing_by
  · have := (List.dropWhile_suffix
      (fun character => isSpace character || character == '\n') (l := rest)).length_le
    simp only [skipLayout, List.length_cons]
    omega
  · have := length_of_read_escape _read
    simp only [List.length_cons]
    omega
  · simp

def readLiteralLines : Reader (List Char)
  | [] => none
  | '\'' :: '\'' :: '\'' :: '\'' :: '\'' :: rest => some (['\'', '\''], rest)
  | '\'' :: '\'' :: '\'' :: '\'' :: rest => some (['\''], rest)
  | '\'' :: '\'' :: '\'' :: rest => some ([], rest)
  | character :: rest =>
      if isShown character || character == '\n' then push character (readLiteralLines rest)
      else none

def dropLineFeed : List Char → List Char
  | '\n' :: rest => rest
  | text => text

def readText : Reader String
  | '"' :: '"' :: '"' :: rest =>
      (readBasicLines (dropLineFeed rest)).map fun (text, rest) => (String.ofList text, rest)
  | '\'' :: '\'' :: '\'' :: rest =>
      (readLiteralLines (dropLineFeed rest)).map fun (text, rest) => (String.ofList text, rest)
  | '"' :: rest => (readBasic rest).map fun (text, rest) => (String.ofList text, rest)
  | '\'' :: rest => (readLiteral rest).map fun (text, rest) => (String.ofList text, rest)
  | _ => none

def isBare (character : Char) : Bool :=
  Decimal.isDigit character || ('a' ≤ character && character ≤ 'z')
    || ('A' ≤ character && character ≤ 'Z') || character == '_' || character == '-'

def readKeyPart : Reader String
  | '"' :: rest => (readBasic rest).map fun (text, rest) => (String.ofList text, rest)
  | '\'' :: rest => (readLiteral rest).map fun (text, rest) => (String.ofList text, rest)
  | text =>
      let word := text.takeWhile isBare
      if word.isEmpty then none else some (String.ofList word, text.dropWhile isBare)

/-- One item or more with a separator in between. There are no more items than the given
number of characters. -/
def readSeparated {β : Type} (separator : Char) (readItem : Reader β) : Nat → Reader (List β)
  | 0, _ => none
  | characters + 1, text => do
      let (item, rest) ← readItem text
      match rest with
      | next :: following =>
          if next = separator then
            let (items, rest) ← readSeparated separator readItem characters following
            return (item :: items, rest)
          else return ([item], rest)
      | [] => return ([item], [])

/-- The most parts of a key, and the deepest nesting of values, are one less than this. -/
def depthLimit : Nat := 80

def readKey : Reader (List String × String) := fun text => do
  let spacedPart := fun text => (readKeyPart (skipSpaces text)).map fun (part, rest) =>
    (part, skipSpaces rest)
  let (parts, rest) ← readSeparated '.' spacedPart (text.length + 1) text
  let last ← parts.getLast?
  if parts.length < depthLimit then some ((parts.dropLast, last), rest) else none

end KifuRatings.Toml
