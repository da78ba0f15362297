import KifuRatings.Text.Utf8
import KifuRatings.Toml.Number

/-!
# Reading TOML

A document is read line by line into statements. Values nest by brackets and braces, at
most 79 deep. A carriage return is allowed before a line feed only.
-/

namespace KifuRatings.Toml

def afterComment? : List Char → Option (List Char)
  | '#' :: text =>
      let rest := text.dropWhile isShown
      if rest.head?.all (· == '\n') then some rest else none
  | text => some text

def skipComments : Nat → List Char → Option (List Char)
  | 0, text => some text
  | characters + 1, text =>
      match skipLayout text with
      | '#' :: rest => do skipComments characters (← afterComment? ('#' :: rest))
      | rest => some rest

def skipFiller (text : List Char) : Option (List Char) := skipComments text.length text

def finishLine (text : List Char) : Option (List Char) := do
  match ← afterComment? (skipSpaces text) with
  | [] => some []
  | '\n' :: rest => some rest
  | _ => none

/-- The elements of a list behind its bracket or a comma. A comma may follow the last one. -/
def readElements (readItem : Reader Item) : Nat → Reader (List Item)
  | 0, _ => none
  | characters + 1, text => do
      match ← skipFiller text with
      | ']' :: rest => some ([], rest)
      | start =>
          let (item, rest) ← readItem start
          match ← skipFiller rest with
          | ',' :: rest =>
              let (items, rest) ← readElements readItem characters rest
              some (item :: items, rest)
          | ']' :: rest => some ([item], rest)
          | _ => none

def readAssignment (readItem : Reader Item) : Reader (List String × String × Item) :=
  fun text => do
    let ((path, key), rest) ← readKey text
    match rest with
    | '=' :: rest =>
        let (item, rest) ← readItem (skipSpaces rest)
        some ((path, key, item), skipSpaces rest)
    | _ => none

/-- The fields of an inline table behind its brace, all on one line and without a comma
after the last one. -/
def readFields (readItem : Reader Item) : Reader Fields := fun text => do
  match skipSpaces text with
  | '\x7d' :: rest => some ([], rest)
  | start =>
      let (assignments, rest) ←
        readSeparated ',' (readAssignment readItem) (start.length + 1) start
      let fields ← assignments.foldlM (fun fields (path, key, item) =>
        Fields.assign fields path key item) []
      match rest with
      | '\x7d' :: rest => some (fields, rest)
      | _ => none

/-- A value that holds at most the given number of nested brackets and braces. -/
def readItem : Nat → Reader Item
  | _, [] => none
  | nesting, first :: rest =>
      if first = '"' ∨ first = '\'' then
        (readText (first :: rest)).map fun (text, rest) => (.text text, rest)
      else if first = '[' ∨ first = '\x7b' then
        match nesting with
        | 0 => none
        | nesting + 1 =>
            if first = '[' then
              (readElements (readItem nesting) (rest.length + 1) rest).map
                fun (items, rest) => (.list items, rest)
            else
              (readFields (readItem nesting) rest).map
                fun (fields, rest) => (.table .inline fields, rest)
      else readRun (first :: rest)

def closeHeader : List Char → Option (List Char)
  | ']' :: rest => some rest
  | _ => none

def readStatement : Reader Statement
  | '[' :: '[' :: text => do
      let ((path, key), rest) ← readKey text
      some (.repeatedHeader (path ++ [key]), ← finishLine (← closeHeader (← closeHeader rest)))
  | '[' :: text => do
      let ((path, key), rest) ← readKey text
      some (.header (path ++ [key]), ← finishLine (← closeHeader rest))
  | text => do
      let ((path, key, item), rest) ← readAssignment (readItem (depthLimit - 1)) text
      some (.assignment path key item, ← finishLine rest)

def readStatements : Nat → List Char → Option (List Statement)
  | 0, _ => none
  | characters + 1, text => do
      match ← skipFiller text with
      | [] => some []
      | start =>
          let (statement, rest) ← readStatement start
          return statement :: (← readStatements characters rest)

/-- Line ends become line feeds; a carriage return elsewhere stays and is refused later. -/
def unifyLines : List Char → List Char
  | '\r' :: '\n' :: rest => '\n' :: unifyLines rest
  | character :: rest => character :: unifyLines rest
  | [] => []

def dropMark : List Char → List Char
  | '\uFEFF' :: rest => rest
  | text => text

def read? (document : String) : Option Fields := do
  let text := unifyLines (dropMark document.toList)
  ofStatements (← readStatements (text.length + 1) text)

end KifuRatings.Toml
