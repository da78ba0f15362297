/-!
# TOML documents

A document is a table of values. How a table came about decides whether later lines may
add to it: a table under a header is closed to dotted keys, a table made by dotted keys is
closed to headers of its own, and an inline table is closed to everything. No key is ever
given twice.
-/

namespace KifuRatings.Toml

inductive Origin where
  /-- Under a header of its own. -/
  | header
  /-- Named on the way to a longer header. -/
  | implied
  /-- Named on the way to a dotted key. -/
  | dotted
  | inline
deriving DecidableEq, Repr

/-- Dates and times are kept as they are written. -/
inductive Item where
  | text (content : String)
  | integer (value : Int)
  | double (value : Float)
  | boolean (value : Bool)
  | moment (written : String)
  | list (elements : List Item)
  | table (origin : Origin) (fields : List (String × Item))
  /-- Tables under repeated headers; the last one is open. -/
  | tables (elements : List (List (String × Item)))

abbrev Fields := List (String × Item)

namespace Fields

def get? (fields : Fields) (key : String) : Option Item := fields.lookup key

def set (key : String) (item : Item) : Fields → Fields
  | [] => [(key, item)]
  | (name, old) :: rest =>
      if name = key then (name, item) :: rest else (name, old) :: set key item rest

def insertNew (fields : Fields) (key : String) (item : Item) : Option Fields :=
  if (fields.get? key).isSome then none else some (fields.set key item)

def changeLast (change : Fields → Option Fields) (tables : List Fields) :
    Option (List Fields) := do
  let last ← tables.getLast?
  return tables.dropLast ++ [← change last]

/-- Gives a value to a dotted key, of which the last part stands apart. -/
def assign (fields : Fields) : List String → String → Item → Option Fields
  | [], key, item => fields.insertNew key item
  | [name], key, item =>
      match fields.get? name with
      | none => some (fields.set name (.table .dotted [(key, item)]))
      | some (.table .dotted inner) => do
          return fields.set name (.table .dotted (← insertNew inner key item))
      | some _ => none
  | name :: next :: rest, key, item =>
      match fields.get? name with
      | none => do
          return fields.set name (.table .dotted (← assign [] (next :: rest) key item))
      | some (.table .dotted inner) => do
          return fields.set name (.table .dotted (← assign inner (next :: rest) key item))
      | some (.table .implied inner) => do
          return fields.set name (.table .implied (← assign inner (next :: rest) key item))
      | some (.tables elements) => do
          let change := fun last => assign last (next :: rest) key item
          return fields.set name (.tables (← changeLast change elements))
      | some _ => none

/-- Changes the table that a header names, entering the last of repeated tables. Tables on
the way are made where they are missing; `open?` opens the named table itself. -/
def enter (open? : Option Item → Option Item) (fields : Fields) : List String → Option Fields
  | [] => none
  | [name] => do return fields.set name (← open? (fields.get? name))
  | name :: next :: rest =>
      match fields.get? name with
      | none => do
          return fields.set name (.table .implied (← enter open? [] (next :: rest)))
      | some (.table .inline _) => none
      | some (.table origin inner) => do
          return fields.set name (.table origin (← enter open? inner (next :: rest)))
      | some (.tables elements) => do
          let change := fun last => enter open? last (next :: rest)
          return fields.set name (.tables (← changeLast change elements))
      | some _ => none

/-- A header may stand once for each table. -/
def openTable : Option Item → Option Item
  | none => some (.table .header [])
  | some (.table .implied fields) => some (.table .header fields)
  | some _ => none

def openNext : Option Item → Option Item
  | none => some (.tables [[]])
  | some (.tables elements) => some (.tables (elements ++ [[]]))
  | some _ => none

def assignIn (path : List String) (key : String) (item : Item) : Option Item → Option Item
  | some (.table .header fields) => do
      return .table .header (← assign fields path key item)
  | some (.tables elements) => do
      return .tables (← changeLast (fun last => assign last path key item) elements)
  | _ => none

end Fields

inductive Statement where
  | header (path : List String)
  | repeatedHeader (path : List String)
  | assignment (path : List String) (key : String) (item : Item)

/-- The document that was read so far, and the header above the next line. -/
structure Draft where
  fields : Fields
  header : List String

def Draft.add (draft : Draft) : Statement → Option Draft
  | .header path => do return ⟨← draft.fields.enter Fields.openTable path, path⟩
  | .repeatedHeader path => do return ⟨← draft.fields.enter Fields.openNext path, path⟩
  | .assignment path key item =>
      if draft.header = [] then do
        return { draft with fields := ← draft.fields.assign path key item }
      else do
        return { draft with
          fields := ← draft.fields.enter (Fields.assignIn path key item) draft.header }

/-- The table that a list of statements describes, if no two of them conflict. -/
def ofStatements (statements : List Statement) : Option Fields :=
  (statements.foldlM Draft.add ⟨[], []⟩).map Draft.fields

end KifuRatings.Toml
