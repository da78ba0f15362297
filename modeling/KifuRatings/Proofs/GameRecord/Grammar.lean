import KifuRatings.GameRecord.Reader

/-!
# The grammar of a root node

What a root node is, written down without a reader: which texts are values, properties and
whole root nodes, what they denote, and where the first mistake of any other text stands.
Relations go from a text to what it denotes. No rule looks at what a reader does; the one
rule about context is that a line break behind a backslash is as long as it can be.
-/

namespace KifuRatings.Property

def Blank (text : Bytes) : Prop := ∀ byte ∈ text, isBlankByte byte = true

/-- Two different line-break bytes in a row are one line break. -/
def lineBreaks : List Bytes :=
  [[lineFeed], [carriageReturn], [lineFeed, carriageReturn], [carriageReturn, lineFeed]]

/-- The text of a value without its brackets, and the bytes that it denotes. A backslash
stands for the byte behind it, and for nothing if a line break is behind it. -/
inductive Written : Bytes → Bytes → Prop where
  | nil : Written [] []
  | plain {byte : UInt8} {text value : Bytes} (unclosed : byte ≠ closeBracket)
      (unescaped : byte ≠ backslash) (rest : Written text value) :
      Written (byte :: text) (byte :: value)
  | escaped {byte : UInt8} {text value : Bytes} (notFeed : byte ≠ lineFeed)
      (notReturn : byte ≠ carriageReturn) (rest : Written text value) :
      Written (backslash :: byte :: text) (byte :: value)
  | softBreak {lineBreak text value : Bytes} (isBreak : lineBreak ∈ lineBreaks)
      (longest : ∀ longer ∈ lineBreaks, longer <+: lineBreak ++ text →
        longer.length ≤ lineBreak.length)
      (rest : Written text value) : Written (backslash :: (lineBreak ++ text)) value

/-- Text that ends inside a value. The last byte may be a backslash with nothing to escape. -/
def Unfinished (text : Bytes) : Prop :=
  ∃ written value, Written written value ∧ (text = written ∨ text = written ++ [backslash])

inductive Values : Bytes → List Bytes → Prop where
  | nil : Values [] []
  | cons {text value blanks rest : Bytes} {values : List Bytes} (first : Written text value)
      (gap : Blank blanks) (others : Values rest values) :
      Values (openBracket :: (text ++ closeBracket :: (blanks ++ rest))) (value :: values)

def Letters (text : Bytes) : Prop := text ≠ [] ∧ ∀ byte ∈ text, isCapital byte = true

inductive IsProperty : Bytes → Property → Prop where
  | mk {letters blanks text value : Bytes} {further : List Bytes} (ident : Letters letters)
      (gap : Blank blanks) (values : Values text (value :: further)) :
      IsProperty (letters ++ (blanks ++ text)) ⟨ofCapitals letters, value, further⟩

inductive Properties : Bytes → List Property → Prop where
  | nil : Properties [] []
  | cons {text rest : Bytes} {property : Property} {properties : List Property}
      (first : IsProperty text property) (others : Properties rest properties) :
      Properties (text ++ rest) (property :: properties)

inductive Opening : Bytes → Prop where
  | mk {before between after : Bytes} (blankBefore : Blank before) (blankBetween : Blank between)
      (blankAfter : Blank after) :
      Opening (before ++ openParenthesis :: (between ++ semicolon :: after))

/-- What may follow the properties of a root node: nothing, or anything behind a byte that
ends the node. -/
def Ended (text : Bytes) : Prop := ∀ byte ∈ text.head?, endsNode byte = true

/-- A text with a root node, and the properties of that node as they are written. -/
inductive RootNode : Bytes → List Property → Prop where
  | mk {opening text rest : Bytes} {properties : List Property} (opened : Opening opening)
      (read : Properties text properties) (ended : Ended rest) :
      RootNode (opening ++ (text ++ rest)) properties

/-- What may follow the last value of a property. -/
def NoValue (text : Bytes) : Prop :=
  ∀ byte ∈ text.head?, isBlankByte byte = false ∧ byte ≠ openBracket

/-- What stands in place of a property, and why it is none. -/
inductive NotAProperty : RecordError → Bytes → Prop where
  | invalidIdent {byte : UInt8} {rest : Bytes} (notBlank : isBlankByte byte = false)
      (inNode : endsNode byte = false) (notCapital : isCapital byte = false) :
      NotAProperty (.invalidIdent byte) (byte :: rest)
  | missingValue {letters blanks rest : Bytes} (ident : Letters letters) (gap : Blank blanks)
      (noLetter : blanks = [] → ∀ byte ∈ rest.head?, isCapital byte = false)
      (noValue : NoValue rest) :
      NotAProperty (.missingValue (ofCapitals letters)) (letters ++ (blanks ++ rest))
  | unterminatedValue {letters blanks text inside : Bytes} {values : List Bytes}
      (ident : Letters letters) (gap : Blank blanks) (read : Values text values)
      (unfinished : Unfinished inside) :
      NotAProperty (.unterminatedValue (ofCapitals letters))
        (letters ++ (blanks ++ (text ++ openBracket :: inside)))

/-- The first mistake of a text that has no root node. Behind a property an opening bracket
is no mistake, since it starts one more value. -/
inductive Mistake : RecordError → Bytes → Prop where
  | empty {raw : Bytes} (blank : Blank raw) : Mistake .empty raw
  | missingGameTree {raw : Bytes} (notBlank : ¬ Blank raw)
      (unopened : ∀ opening rest, Opening opening → raw ≠ opening ++ rest) :
      Mistake .missingGameTree raw
  | inNode {opening text rest : Bytes} {properties : List Property} {cause : RecordError}
      (opened : Opening opening) (read : Properties text properties)
      (failed : NotAProperty cause rest)
      (noValue : properties ≠ [] → rest.head? ≠ some openBracket) :
      Mistake cause (opening ++ (text ++ rest))

end KifuRatings.Property
