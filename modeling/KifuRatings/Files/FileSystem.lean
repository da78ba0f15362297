import Std.Data.ExtTreeMap
import KifuRatings.Files.Path

/-!
# File systems

A file system is a finite map from paths to files, directories, symbolic links and whatever
else may stand there, together with a working directory. A file may be there and still refuse to
be read.
Following a route replaces every link on the way by its target, and the path at its end has
no link in it. At most 40 links are followed on one route, so every route ends.
-/

namespace KifuRatings

inductive AccessError where
  | notFound
  | notADirectory
  | isADirectory
  | tooManyLinks
deriving DecidableEq, Repr

def AccessError.message : AccessError → String
  | .notFound => "No such file or directory (os error 2)"
  | .notADirectory => "Not a directory (os error 20)"
  | .isADirectory => "Is a directory (os error 21)"
  | .tooManyLinks => "Too many levels of symbolic links (os error 40)"

/-- The target of a link is a route from the directory that holds the link. -/
inductive Entry where
  | file (content : Bytes)
  /-- A file whose content is not to be had. -/
  | unreadable (cause : AccessError)
  | directory
  | link (target : Bytes)
  /-- A device or a pipe, with what can be read from it. -/
  | special (content : Bytes)
deriving DecidableEq

structure FileSystem where
  entries : Std.ExtTreeMap Path Entry Path.order
  workingDirectory : Path

namespace FileSystem

def maxLinks : Nat := 40

/-- The root is always a directory. -/
def lookup (files : FileSystem) (path : Path) : Option Entry :=
  if path = [] then some .directory else files.entries[path]?

def isDirectoryAt (files : FileSystem) (path : Path) : Bool :=
  files.lookup path = some .directory

def origin (base : Path) (route : Bytes) : Path :=
  if Route.isAbsolute route then [] else base

/-- Follows a route from a path as far as it has no link, with `cross` for what comes after
the first link. Only the last name of the route may be missing. -/
def walkWith (files : FileSystem) (links : Nat)
    (cross : Path → Route → Except AccessError (Nat × Path)) :
    Path → Route → Except AccessError (Nat × Path)
  | path, [] => .ok (links, path)
  | path, step :: rest =>
      if files.isDirectoryAt path then
        match step with
        | .stay => files.walkWith links cross path rest
        | .up => files.walkWith links cross path.dropLast rest
        | .into name =>
            match files.lookup (path ++ [name]) with
            | none => if rest = [] then .ok (links, path ++ [name]) else .error .notFound
            | some (.link target) => cross (origin path target) (Route.ofBytes target ++ rest)
            | some _ => files.walkWith links cross (path ++ [name]) rest
      else if files.lookup path = none then .error .notFound
      else .error .notADirectory

/-- Follows a route from a path, with a number of links that may still be followed, and
tells how many are left. -/
def walk (files : FileSystem) : Nat → Path → Route → Except AccessError (Nat × Path)
  | 0 => files.walkWith 0 fun _ _ => .error .tooManyLinks
  | links + 1 => files.walkWith (links + 1) (files.walk links)

def follow (files : FileSystem) (links : Nat) (start : Path) (route : Route) :
    Except AccessError (Nat × Path) := do
  let (left, path) ← files.walk links start route
  if files.lookup path = none then throw .notFound
  return (left, path)

/-- The one path without links to which a route leads. The empty text leads nowhere. -/
def resolve (files : FileSystem) (route : Bytes) : Except AccessError Path :=
  if route.isEmpty then .error .notFound
  else
    (files.follow maxLinks (origin files.workingDirectory route) (Route.ofBytes route)).map (·.2)

def exists? (files : FileSystem) (route : Bytes) : Bool := (files.resolve route).toOption.isSome

def isDirectory (files : FileSystem) (route : Bytes) : Bool :=
  (files.resolve route).toOption.any files.isDirectoryAt

def isFileAt (files : FileSystem) (path : Path) : Bool :=
  match files.lookup path with
  | some (.file _) | some (.unreadable _) => true
  | _ => false

def contentAt (files : FileSystem) (path : Path) : Except AccessError Bytes :=
  match files.lookup path with
  | some (.file content) | some (.special content) => .ok content
  | some (.unreadable cause) => .error cause
  | some _ => .error .isADirectory
  | none => .error .notFound

def read (files : FileSystem) (route : Bytes) : Except AccessError Bytes := do
  files.contentAt (← files.resolve route)

/-- Reads a file by its path, on which links may stand by now. -/
def readPath (files : FileSystem) (path : Path) : Except AccessError Bytes := do
  let (_, target) ← files.follow maxLinks [] (Route.ofPath path)
  files.contentAt target

def literalPath (files : FileSystem) (route : Bytes) : Path :=
  origin files.workingDirectory route ++ Route.literal (Route.ofBytes route)

end FileSystem

end KifuRatings
