import KifuRatings.Files.FileSystem

/-!
# Scanning directories

A scan finds the entries of a directory or, on request, everything below it. Links to
directories are entered, so one file can be found under several names; the links used up
on the way count against the limit, which ends a scan that runs in circles. A scan is asked for by
the text of a path, so where this is not the path itself another directory is scanned, or none.
-/

namespace KifuRatings.FileSystem

def entriesIn (files : FileSystem) (directory : Path) : List Path :=
  files.entries.keys.filter fun path => path ≠ [] ∧ path.dropLast = directory

def isBelow (files : FileSystem) (directory path : Path) : Bool :=
  directory.length < path.length && directory.isPrefixOf path
    && (List.range path.length).all fun length =>
      length ≤ directory.length || files.isDirectoryAt (path.take length)

def entriesBelow (files : FileSystem) (directory : Path) : List Path :=
  files.entries.keys.filter (files.isBelow directory)

/-- Follows the last name of a path, which may be a link, and tells how many links are left
after that. -/
def followLast (files : FileSystem) (links : Nat) (path : Path) :
    Except AccessError (Nat × Path) :=
  files.follow links path.dropLast (Route.ofPath path.getLast?.toList)

def linkedDirectory? (files : FileSystem) (links : Nat) (path : Path) : Option (Nat × Path) :=
  match files.lookup path, files.followLast links path with
  | some (.link _), .ok (left, target) =>
      if files.isDirectoryAt target then some (left, target) else none
  | _, _ => none

/-- Everything below a directory, each path with the number of links that may still be
followed from there. -/
def scanBelow (files : FileSystem) : Nat → Path → List (Nat × Path)
  | 0, directory => (files.entriesBelow directory).map fun path => (0, path)
  | links + 1, directory =>
      (files.entriesBelow directory).flatMap fun path =>
        (links + 1, path) ::
          match files.linkedDirectory? (links + 1) path with
          | some (left, target) => files.scanBelow (min left links) target
          | none => []
termination_by links => links
decreasing_by omega

structure Found where
  name : Bytes
  path : Path
deriving DecidableEq, Repr

def found? (files : FileSystem) (links : Nat) (path : Path) : Option Found :=
  match files.followLast links path, path.getLast? with
  | .ok (_, target), some name => if files.isFileAt target then some ⟨name, target⟩ else none
  | _, _ => none

def scanFrom (files : FileSystem) (links : Nat) (directory : Path) (recursive : Bool) :
    List Found :=
  let entries :=
    if recursive then files.scanBelow links directory
    else (files.entriesIn directory).map fun path => (links, path)
  entries.filterMap fun (links, path) => files.found? links path

/-- The directory to which the text of a path leads, with the number of links that may still be
followed from there. On a path that is its own text no link is left. -/
def scanned? (files : FileSystem) (path : Path) : Option (Nat × Path) :=
  if path.asText = path then some (maxLinks, path)
  else
    match files.follow maxLinks [] (Route.ofPath path.asText) with
    | .ok (links, directory) =>
        if files.isDirectoryAt directory then some (links, directory) else none
    | .error _ => none

def scan (files : FileSystem) (path : Path) (recursive : Bool) : List Found :=
  match files.scanned? path with
  | some (links, directory) => files.scanFrom links directory recursive
  | none => []

end KifuRatings.FileSystem
