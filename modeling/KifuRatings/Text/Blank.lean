import KifuRatings.Text.Utf8

/-!
# Blank characters

Two classes are kept apart. Between the tokens of a game record only five bytes count as
blank; inside a player's name every character with the Unicode property `White_Space`
does. `flatten` and `trim` make single-line text out of a name.
-/

namespace KifuRatings

/-- Space, tab, line feed, form feed and carriage return; the vertical tab is not blank. -/
def isBlankByte (byte : UInt8) : Bool :=
  byte == 0x20 || byte == 0x09 || byte == 0x0A || byte == 0x0C || byte == 0x0D

namespace Text

/-- The 25 characters with the property `White_Space`. -/
def isBlank (character : Char) : Bool :=
  let value := character.toNat
  (0x09 ≤ value && value ≤ 0x0D) || value == 0x20 || value == 0x85 || value == 0xA0
    || value == 0x1680 || (0x2000 ≤ value && value ≤ 0x200A) || value == 0x2028
    || value == 0x2029 || value == 0x202F || value == 0x205F || value == 0x3000

def flatten (text : List Char) : List Char :=
  text.map fun character => if isBlank character then ' ' else character

def trimStart (text : List Char) : List Char := text.dropWhile isBlank

def trimEnd (text : List Char) : List Char := (text.reverse.dropWhile isBlank).reverse

def trim (text : List Char) : List Char := trimEnd (trimStart text)

/-- The form in which a name is compared and printed. -/
def singleLine (text : String) : String := String.ofList (trim (flatten text.toList))

end Text

end KifuRatings
