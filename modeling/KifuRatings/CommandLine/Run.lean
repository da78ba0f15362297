import KifuRatings.CommandLine.Arguments
import KifuRatings.Crosstable.Layout
import KifuRatings.Files.Change
import KifuRatings.Rating.Estimate
import KifuRatings.Settings
import KifuRatings.Summary.Export

/-!
# A run of the program

A run takes in the inputs, prints the players, the score matrix and the ratings, and
exports the summary if asked to. An input that is refused is reported and left out, and ratings
that do not exist are left out as well; only unusable settings and a summary that cannot
be written make a run fail. A run is a function of its arguments, the files and the time.
-/

namespace KifuRatings

structure RunResult where
  exitCode : Nat
  output : String
  events : List Event
  /-- What was refused without failing. -/
  errors : List String
  /-- Why the run failed, or how to use the program. -/
  notice : Option String
  files : FileSystem

namespace Run

def stopped (exitCode : Nat) (notice : String) (files : FileSystem) : RunResult where
  exitCode := exitCode
  output := ""
  events := []
  errors := []
  notice := some notice
  files := files

def usage : String :=
  "Usage: kifu-ratings [INPUTS]... [-r|--recursive] [-p|--prior ELO] [-c|--config FILE]\n"
    ++ "       [--virtual-draws DRAWS] [--json FILE] [-h|--help]\n"
    ++ "Counts the results of Go matches in SGF records and estimates Elo ratings."

def override (arguments : Arguments) (settings : Settings) : Settings where
  inputs := if arguments.inputs.isEmpty then settings.inputs else arguments.inputs
  recursive := settings.recursive || arguments.recursive
  priorElo := arguments.prior.getD settings.priorElo
  komiMin := settings.komiMin
  komiMax := settings.komiMax
  virtualDraws := arguments.virtualDraws.getD settings.virtualDraws

def settingsRoute (arguments : Arguments) : Bytes :=
  arguments.config.getD Settings.defaultRoute

/-- The settings of a run. A file that is named has to exist. -/
def settings (files : FileSystem) (arguments : Arguments) : Except SettingsError Settings := do
  let found ← match arguments.config with
    | some route => Settings.ofFile files route
    | none => Settings.ofDefaultFile files
  return override arguments found

structure Collected where
  book : Scorebook
  count : IntakeCount
  events : List Event
  errors : List String

def take (files : FileSystem) (recursive : Bool) (collected : Collected) (input : Bytes) :
    Collected :=
  match collected.book.takeInput .gameRecord files input recursive with
  | .ok progress =>
      { book := progress.book
        count := collected.count.add progress.count
        events := collected.events ++ progress.events
        errors := collected.errors }
  | .error cause => { collected with errors := collected.errors ++ [cause.message] }

def collect (files : FileSystem) (settings : Settings) (komiRange : KomiRange) : Collected :=
  settings.inputs.foldl (take files settings.recursive)
    ⟨Scorebook.empty komiRange, .zero, [], []⟩

def tables (table : Crosstable) : String :=
  let matrix := ScoreMatrix.ofTable table
  (if table.isEmpty then "No games found.\n" else "")
    ++ "Players:\n" ++ Layout.legend matrix.players.toList
    ++ "\nWins of row player against column player (draws count half):\n"
    ++ Layout.scores matrix

def warning (settings : Settings) : String :=
  "\nWarning: some games had a handicap or komi outside " ++ Decimal.shortest settings.komiMin
    ++ " to " ++ Decimal.shortest settings.komiMax ++ "; Elo estimates assume even games.\n"

/-- The ratings of a table that is not empty, or why there are none. -/
def ratings (settings : Settings) (table : Crosstable) :
    Option (Except FitError (RatingList Float)) :=
  if table.isEmpty then none
  else
    some (table.rate Link.logistic Fit.defaultSettings settings.priorElo settings.virtualDraws)

def summarise (arguments : Arguments) (settings : Settings) (files : FileSystem)
    (createdAt : String) (collected : Collected) : RunResult :=
  let table := collected.book.table
  let nonstandard := collected.book.nonstandard
  let fitted := ratings settings table
  let rated := fitted.bind (·.toOption)
  let fitErrors := match fitted with
    | some (.error cause) => ["Elo estimation failed: " ++ cause.message]
    | _ => []
  let output := tables table ++ (if nonstandard then warning settings else "")
    ++ (match rated with
      | some list => "\nElo ratings:\n" ++ list.text
      | none => "")
  let count := collected.count
  let finished := .finished count.games count.files count.malformed count.unread
  let result := {
    exitCode := 0
    output := output
    events := collected.events ++ [finished]
    errors := collected.errors ++ fitErrors
    notice := none
    files := files }
  match arguments.json with
  | none => result
  | some route =>
      let document := Export.document table rated nonstandard createdAt
      match files.write route (Utf8.encode document.pretty) with
      | .ok files =>
          { result with
            output := output ++ "\nSummary written to " ++ Utf8.decodeLossy route ++ "\n"
            files := files }
      | .error cause =>
          { result with
            exitCode := 1
            notice := some ("Failed to write JSON to " ++ Utf8.decodeLossy route ++ ": "
              ++ cause.message) }

def runWith (arguments : Arguments) (files : FileSystem) (createdAt : String) : RunResult :=
  match Run.settings files arguments with
  | .error cause => stopped 1 cause.message files
  | .ok settings =>
      match settings.komiRange with
      | .error cause => stopped 1 cause.message files
      | .ok komiRange =>
          summarise arguments settings files createdAt (collect files settings komiRange)

end Run

def run (arguments : List Bytes) (files : FileSystem) (createdAt : String) : RunResult :=
  match Arguments.read arguments with
  | .run arguments => Run.runWith arguments files createdAt
  | .help => Run.stopped 0 Run.usage files
  | .mistake => Run.stopped 2 Run.usage files

end KifuRatings
