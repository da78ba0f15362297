/-!
# Columns of text

Fields are padded with spaces to a width counted in characters; a field that is wider than
its column is not cut.
-/

namespace KifuRatings.Text

def spaces (count : Nat) : String := String.ofList (List.replicate count ' ')

def padEnd (width : Nat) (field : String) : String := field ++ spaces (width - field.length)

def padStart (width : Nat) (field : String) : String := spaces (width - field.length) ++ field

def widest (fields : List String) : Nat := (fields.map String.length).foldl max 0

end KifuRatings.Text
