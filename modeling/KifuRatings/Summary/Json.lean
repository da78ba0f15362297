import KifuRatings.Text.Columns

/-!
# Indented JSON

Each element of a list and each field of an object stands on a line of its own, two spaces
further in than its container. An empty list or object is closed at once.
-/

namespace KifuRatings

/-- `literal` holds a number or a word that is written as it is. -/
inductive Json where
  | literal (text : String)
  | text (content : String)
  | list (elements : List Json)
  | object (fields : List (String × Json))

namespace Json

/-- Quotes, backslashes and control characters below the space are escaped; the common
control characters have short forms. -/
def escape (character : Char) : List Char :=
  let value := character.toNat
  if character == '"' then ['\\', '"']
  else if character == '\\' then ['\\', '\\']
  else if value == 0x08 then ['\\', 'b']
  else if value == 0x09 then ['\\', 't']
  else if value == 0x0A then ['\\', 'n']
  else if value == 0x0C then ['\\', 'f']
  else if value == 0x0D then ['\\', 'r']
  else if value < 0x20 then
    ['\\', 'u', '0', '0', Nat.digitChar (value / 16), Nat.digitChar (value % 16)]
  else [character]

def quote (content : String) : String :=
  String.ofList ('"' :: content.toList.flatMap escape ++ ['"'])

def lineAt (depth : Nat) : String := "\n" ++ Text.spaces (2 * depth)

mutual

def render (depth : Nat) : Json → String
  | .literal written => written
  | .text content => quote content
  | .list [] => "[]"
  | .list (first :: rest) =>
      "[" ++ lineAt (depth + 1) ++ render (depth + 1) first ++ renderElements (depth + 1) rest
        ++ lineAt depth ++ "]"
  | .object [] => "\x7b\x7d"
  | .object ((name, first) :: rest) =>
      "\x7b" ++ lineAt (depth + 1) ++ quote name ++ ": " ++ render (depth + 1) first
        ++ renderFields (depth + 1) rest ++ lineAt depth ++ "\x7d"

def renderElements (depth : Nat) : List Json → String
  | [] => ""
  | element :: rest =>
      "," ++ lineAt depth ++ render depth element ++ renderElements depth rest

def renderFields (depth : Nat) : List (String × Json) → String
  | [] => ""
  | (name, value) :: rest =>
      "," ++ lineAt depth ++ quote name ++ ": " ++ render depth value ++ renderFields depth rest

end

def pretty (value : Json) : String := render 0 value

def nat (value : Nat) : Json := .literal (String.ofList (Nat.toDigits 10 value))

def bool (value : Bool) : Json := .literal (if value then "true" else "false")

end Json

end KifuRatings
