import KifuRatings.Decimal.Shortest
import KifuRatings.Intake.Scorebook
import KifuRatings.Toml.Document

/-!
# Settings

Settings come from a TOML document. Each has a default, unknown keys are ignored, and a
known key with a value of another type makes the whole document unusable. Whole numbers
do where numbers are asked for.
-/

namespace KifuRatings

structure Settings where
  inputs : List Bytes
  recursive : Bool
  priorElo : Float
  komiMin : Float
  komiMax : Float
  /-- Draws of each player against an opponent with the mean rating. -/
  virtualDraws : Float

inductive SettingsError where
  | unreadable (cause : AccessError)
  | notUtf8
  | malformed
  | invalidKomiRange (least greatest : Float)

def SettingsError.message : SettingsError → String
  | .unreadable cause => "Failed to read config file: " ++ cause.message
  | .notUtf8 => "Failed to read config file: stream did not contain valid UTF-8"
  | .malformed => "Failed to parse config"
  | .invalidKomiRange least greatest =>
      "Invalid komi range: " ++ Decimal.shortest least ++ " to " ++ Decimal.shortest greatest

namespace Settings

/-- One virtual draw keeps every rating finite. -/
def default : Settings where
  inputs := []
  recursive := false
  priorElo := 0.0
  komiMin := KomiRange.standard.least
  komiMax := KomiRange.standard.greatest
  virtualDraws := 1.0

def asText? : Toml.Item → Option String
  | .text content => some content
  | _ => none

def asRoutes? : Toml.Item → Option (List Bytes)
  | .list items => items.mapM fun item => (asText? item).map Utf8.encode
  | _ => none

def asBoolean? : Toml.Item → Option Bool
  | .boolean value => some value
  | _ => none

def asDouble? : Toml.Item → Option Float
  | .double value => some value
  | .integer value =>
      let size := Decimal.scientific value.natAbs 0
      some (if value < 0 then -size else size)
  | _ => none

def setting {β : Type} (fields : Toml.Fields) (key : String) (decode : Toml.Item → Option β)
    (missing : β) : Option β :=
  match fields.get? key with
  | some item => decode item
  | none => some missing

def ofFields? (fields : Toml.Fields) : Option Settings := do
  return {
    inputs := ← setting fields "input_dirs" asRoutes? default.inputs
    recursive := ← setting fields "recursive" asBoolean? default.recursive
    priorElo := ← setting fields "prior_elo" asDouble? default.priorElo
    komiMin := ← setting fields "komi_min" asDouble? default.komiMin
    komiMax := ← setting fields "komi_max" asDouble? default.komiMax
    virtualDraws := ← setting fields "virtual_draws" asDouble? default.virtualDraws }

/-- The komi of standard games; its ends have to be finite and in order. -/
def komiRange (settings : Settings) : Except SettingsError KomiRange :=
  let least := settings.komiMin
  let greatest := settings.komiMax
  if least.isFinite && greatest.isFinite && !(greatest < least) then .ok ⟨least, greatest⟩
  else .error (.invalidKomiRange least greatest)

def read (content : Bytes) : Except SettingsError Settings := do
  let some document := Utf8.decode? content | throw .notUtf8
  let some settings := (Toml.read? document).bind ofFields? | throw .malformed
  let _ ← settings.komiRange
  return settings

def ofFile (files : FileSystem) (route : Bytes) : Except SettingsError Settings :=
  match files.read route with
  | .ok content => read content
  | .error cause => .error (.unreadable cause)

def defaultRoute : Bytes := "sgf-summary.toml"

def ofDefaultFile (files : FileSystem) : Except SettingsError Settings :=
  if files.exists? defaultRoute then ofFile files defaultRoute else .ok default

end Settings

end KifuRatings
