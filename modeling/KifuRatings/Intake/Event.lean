import KifuRatings.Files.FileSystem

/-!
# Events and errors

What is worth telling while files are taken in. Errors end an operation without any
change; events are reported along the way.
-/

namespace KifuRatings

/-- Why an input is refused, with the route as it was given. As long as the files stay as they are,
a route that leads somewhere can be resolved, and the text of a path with its special characters
escaped is a pattern, so nothing else is refused. -/
inductive InputError where
  | missing (route : Bytes)
  | notADirectory (route : Bytes)
  | notAFile (route : Bytes)
  | notARecordFile (route : Bytes)
deriving DecidableEq, Repr

def InputError.message : InputError → String
  | .missing route => "no such file or directory: " ++ Utf8.decodeLossy route
  | .notADirectory route => "not a directory: " ++ Utf8.decodeLossy route
  | .notAFile route => "not a file: " ++ Utf8.decodeLossy route
  | .notARecordFile route => "not a recognized game file: " ++ Utf8.decodeLossy route

inductive Event where
  /-- The new files of both forms that searching a directory gave. -/
  | found (lines whole : Nat) (directory : Bytes)
  | known (path : Path)
  | taken (done total : Nat)
  | unreadable (path : Path) (cause : AccessError)
  | malformedFile (path : Path) (cause : String)
  /-- Lines are counted from one. -/
  | malformedLine (path : Path) (line : Nat) (cause : String)
  /-- What taking in all inputs came to. -/
  | finished (games files malformed unread : Nat)
deriving DecidableEq, Repr

namespace Event

def isWarning : Event → Bool
  | .found .. | .known _ | .taken .. | .finished .. => false
  | .unreadable .. | .malformedFile .. | .malformedLine .. => true

def digits (count : Nat) : String := String.ofList (Nat.toDigits 10 count)

def message : Event → String
  | .found lines whole directory =>
      "Found " ++ digits lines ++ " new sgfs files and " ++ digits whole
        ++ " new sgf files under " ++ Utf8.decodeLossy directory
  | .known path => path.text ++ " is already added"
  | .taken done total => "Parsed " ++ digits done ++ " files out of " ++ digits total ++ " files."
  | .unreadable path cause => "failed to read " ++ path.text ++ ": " ++ cause.message
  | .malformedFile path cause => "Skipping malformed record " ++ path.text ++ ": " ++ cause
  | .malformedLine path line cause =>
      "Skipping malformed record at " ++ path.text ++ ":" ++ digits line ++ ": " ++ cause
  | .finished games files malformed unread =>
      "Ingested " ++ digits games ++ " games from " ++ digits files ++ " files ("
        ++ digits malformed ++ " malformed records, " ++ digits unread ++ " unreadable files)"

end Event

end KifuRatings
