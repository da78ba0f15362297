import KifuRatings.Files.FileSystem

/-!
# Changing files

A file is created where its route leads, through links if need be; its directory has to
exist. A route that can only lead to a directory cannot be written to.
-/

namespace KifuRatings.FileSystem

def empty (workingDirectory : Path) : FileSystem where
  entries := Std.ExtTreeMap.ofList
    ((List.range workingDirectory.length).map fun length =>
      (workingDirectory.take (length + 1), Entry.directory)) Path.order
  workingDirectory := workingDirectory

def put (files : FileSystem) (path : Path) (entry : Entry) : FileSystem :=
  { files with entries := files.entries.insert path entry }

def target (files : FileSystem) (route : Bytes) : Except AccessError Path := do
  let start := origin files.workingDirectory route
  let trimmed := (route.reverse.dropWhile (· == 0x2F)).reverse
  let steps := Route.ofBytes trimmed
  match steps.getLast? with
  | some (.into _) =>
      if trimmed.length = route.length then
        return (← files.walk maxLinks start steps).2
      else
        let (_, parent) ← files.walk maxLinks start steps.dropLast
        if files.isDirectoryAt parent then throw .isADirectory else throw .notADirectory
  | _ =>
      let _ ← files.walk maxLinks start steps
      throw .isADirectory

/-- What is written to a device or a pipe is gone. -/
def write (files : FileSystem) (route : Bytes) (content : Bytes) :
    Except AccessError FileSystem := do
  if route.isEmpty then throw .notFound
  let path ← files.target route
  match files.lookup path with
  | some .directory => throw .isADirectory
  | some (.special _) => return files
  | _ => return files.put path (.file content)

def makeDirectories (files : FileSystem) (start : Path) (route : Route) : FileSystem :=
  (List.range route.length).foldl (fun files length =>
    match files.walk maxLinks start (route.take (length + 1)) with
    | .ok (_, path) => if files.lookup path = none then files.put path .directory else files
    | .error _ => files) files

def makeDirectory (files : FileSystem) (route : Bytes) : FileSystem :=
  files.makeDirectories (origin files.workingDirectory route) (Route.ofBytes route)

def makeParent (files : FileSystem) (route : Bytes) : FileSystem :=
  files.makeDirectories (origin files.workingDirectory route) (Route.ofBytes route).dropLast

/-- The place of a route's last name itself, which may be a link. -/
def place (files : FileSystem) (route : Bytes) : Except AccessError Path := do
  let steps := Route.ofBytes route
  let (_, parent) ← files.follow maxLinks (origin files.workingDirectory route) steps.dropLast
  match steps.getLast? with
  | some (.into name) => return parent ++ [name]
  | _ => throw .isADirectory

def makeLink (files : FileSystem) (route target : Bytes) : Except AccessError FileSystem := do
  return files.put (← files.place route) (.link target)

def remove (files : FileSystem) (route : Bytes) : Except AccessError FileSystem := do
  let path ← files.place route
  return { files with entries := files.entries.filter fun other _ => !path.isPrefixOf other }

end KifuRatings.FileSystem
