import Std.Data.ExtTreeSet
import KifuRatings.Text.Utf8

/-!
# Paths

A path names a file by the names of the directories from the root down. A name is made of bytes,
which need not be text. What a user writes is a route instead: it may start at the working
directory, go up, stand still or pass through links, and different routes can lead to one path.
-/

namespace KifuRatings

/-- Text stands for its bytes where a name or a route is asked for. -/
instance : Coe String Bytes := ⟨Utf8.encode⟩

abbrev Path := List Bytes

namespace Path

/-- Name by name, so everything below a directory stands together. -/
def order : Path → Path → Ordering := List.compareLex (List.compareLex compare)

instance : Std.TransCmp order := List.instTransCmpCompareLex

instance : Std.LawfulEqCmp order := List.instLawfulEqCmpCompareLex

def written (path : Path) : Bytes := 0x2F :: [0x2F].intercalate path

def text (path : Path) : String := Utf8.decodeLossy path.written

/-- The path that is written where a path is shown. Nothing malformed goes on behind a slash, so
every name is shown by itself. -/
def asText (path : Path) : Path := path.map fun name => Utf8.encode (Utf8.decodeLossy name)

end Path

abbrev PathSet := Std.ExtTreeSet Path Path.order

/-- One step of a route. `stay` asks for a directory and does not leave it. -/
inductive Step where
  | stay
  | up
  | into (name : Bytes)
deriving DecidableEq, Repr

abbrev Route := List Step

namespace Route

/-- One dot stands for the directory itself and two dots for the one above. -/
def stepOf (part : Bytes) : Step :=
  if part = [] ∨ part = [0x2E] then .stay
  else if part = [0x2E, 0x2E] then .up
  else .into part

/-- The steps between slashes. A slash at the end is one more step, which stays, so such a
route leads to directories only. -/
def ofBytes (route : Bytes) : Route := (route.splitOnP (· == 0x2F)).map stepOf

def isAbsolute (route : Bytes) : Bool := route.head? == some 0x2F

/-- The name that the route ends with, if it does not end by going up. -/
def lastName? (route : Route) : Option Bytes :=
  match route.reverse.dropWhile (· == .stay) with
  | .into name :: _ => some name
  | _ => none

def literal (route : Route) : Path :=
  route.filterMap fun
    | .stay => none
    | .up => some [0x2E, 0x2E]
    | .into name => some name

def ofPath (path : Path) : Route := path.map .into

end Route

end KifuRatings
