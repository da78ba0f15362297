import KifuRatings.Files.Scan
import KifuRatings.Intake.Event
import KifuRatings.Intake.RecordFiles

/-!
# Searching for record files

Files that were taken in are known by their paths, so a growing directory can be searched
again and again and every file is taken in once, whatever route leads to it. A file's form
is told by the name under which it is found.
-/

namespace KifuRatings.RecordFiles

def unknownIn (known : RecordFiles) (files : FileSystem) (directory : Path) (recursive : Bool) :
    RecordFiles :=
  (files.scan directory recursive).foldl (fun new found =>
    match RecordForm.ofName found.name with
    | some form => if known.contains found.path then new else new.insert form found.path
    | none => new) empty

/-- The files that are known after searching a directory, and the new ones among them. -/
def search (known : RecordFiles) (files : FileSystem) (directory : Bytes) (recursive : Bool) :
    Except InputError (RecordFiles × RecordFiles × Event) :=
  match files.resolve directory with
  | .error _ => .error (.missing directory)
  | .ok path =>
      if files.isDirectoryAt path then
        let new := known.unknownIn files path recursive
        .ok (known.union new, new, .found new.lines.size new.whole.size directory)
      else .error (.notADirectory directory)

/-- The files that are known after one more is named, and its form if it was not known
before. -/
def accept (known : RecordFiles) (files : FileSystem) (route : Bytes) :
    Except InputError (RecordFiles × Option RecordForm × Path) :=
  match files.resolve route with
  | .error _ => .error (.missing route)
  | .ok path =>
      if files.isFileAt path then
        match RecordForm.ofRoute route with
        | none => .error (.notARecordFile route)
        | some form =>
            if known.contains path then .ok (known, none, path)
            else .ok (known.insert form path, some form, path)
      else .error (.notAFile route)

end KifuRatings.RecordFiles
