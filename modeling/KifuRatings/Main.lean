import Std.Time.DateTime
import KifuRatings.CommandLine.Run
import KifuRatings.Summary.Moment

/-!
# The command line

Everything a run decides is a function of its arguments, the files and the time. What is
left is to look at the files that it may need, to print, and to write the files that it
changed.
-/

namespace KifuRatings.Console

abbrev View := StateT FileSystem IO

def namesOf (path : String) : Path := Route.literal (Route.ofBytes path)

def realPath? (path : Path) : IO (Option Path) := do
  match ← (IO.FS.realPath path.text).toBaseIO with
  | .ok real => return some (namesOf real.toString)
  | .error _ => return none

def note (path : Path) : View Unit := do
  if ((← get).lookup path).isSome then return
  for length in [1 : path.length] do
    modify fun files => files.put (path.take length) .directory
  match ← (← IO.FS.realPath path.text).metadata.toBaseIO with
  | .ok { type := .dir, .. } => modify fun files => files.put path .directory
  | .ok { type := .file, .. } =>
      match ← (IO.FS.readBinFile path.text).toBaseIO with
      | .ok content => modify fun files => files.put path (.file content.toList)
      | .error _ => modify fun files => files.put path (.unreadable .notFound)
  | .ok _ => modify fun files => files.put path (.special [])
  | .error _ => return

/-- Notes a name in a directory, and what it leads to if it is a link. -/
def noteName (directory : Path) (name : Bytes) : View (Option Path) := do
  let path := directory ++ [name]
  let some target ← realPath? path | return none
  unless target = path do
    modify fun files => files.put path (.link target.written)
  note target
  return some target

def noteRoute (route : Bytes) : View (Option Path) := do
  let mut place := FileSystem.origin (← get).workingDirectory route
  for step in Route.ofBytes route do
    match step with
    | .stay => continue
    | .up => place := place.dropLast
    | .into name =>
        let some target ← noteName place name | return none
        place := target
  return some place

/-- Notes the entries of directories, and of those below them if asked to. -/
partial def noteEntries (recursive : Bool) : List Path → List Path → View Unit
  | [], _ => return
  | directory :: waiting, seen => do
      if seen.contains directory || !(← get).isDirectoryAt directory then
        noteEntries recursive waiting seen
      else
        match ← (do (← IO.FS.realPath directory.text).readDir).toBaseIO with
        | .error _ => noteEntries recursive waiting (directory :: seen)
        | .ok entries =>
            let targets ← entries.toList.filterMapM fun entry => noteName directory entry.fileName
            noteEntries recursive (if recursive then targets ++ waiting else waiting)
              (directory :: seen)

def noteInput (recursive : Bool) (route : Bytes) : View Unit := do
  if let some path ← noteRoute route then noteEntries recursive [path] []

/-- Notes everything that a run with these arguments looks at. -/
def noteAll (arguments : Arguments) : View Unit := do
  let _ ← noteRoute (Run.settingsRoute arguments)
  if let some route := arguments.json then
    let _ ← noteRoute route
  match Run.settings (← get) arguments with
  | .ok settings => settings.inputs.forM (noteInput settings.recursive)
  | .error _ => return

def now : IO String := do
  let timestamp ← Std.Time.Timestamp.now
  let moment := Std.Time.PlainDateTime.ofWallTime (Std.Time.WallTime.ofDuration timestamp.val)
  return Moment.text {
    year := moment.date.year.toNat
    month := moment.date.month.val.toNat
    day := moment.date.day.val.toNat
    hour := moment.time.hour.val.toNat
    minute := moment.time.minute.val.toNat
    second := moment.time.second.val.toNat
    nanosecond := moment.time.nanosecond.val.toNat }

def writeChanges (before after : FileSystem) : IO Unit := do
  for (path, entry) in after.entries.toList do
    match entry with
    | .file content =>
        unless before.lookup path = some entry do
          IO.FS.writeBinFile path.text ⟨content.toArray⟩
    | _ => continue

end KifuRatings.Console

open KifuRatings Console in
def main (arguments : List String) : IO UInt32 := do
  let workingDirectory := namesOf (← IO.FS.realPath (← IO.currentDir)).toString
  let unseen := FileSystem.empty workingDirectory
  let given := arguments.map Utf8.encode
  let files ← match Arguments.read given with
    | .run arguments => do pure (← (noteAll arguments).run unseen).2
    | _ => pure unseen
  let result := run given files (← now)
  for event in result.events do
    IO.eprintln ((if event.isWarning then "WARN " else "INFO ") ++ event.message)
  for error in result.errors do
    IO.eprintln ("ERROR " ++ error)
  match ← (writeChanges files result.files).toBaseIO with
  | .error cause =>
      IO.eprintln ("Error: " ++ cause.toString)
      return 1
  | .ok _ =>
      IO.print result.output
      if let some notice := result.notice then IO.eprintln notice
      return UInt32.ofNat result.exitCode
