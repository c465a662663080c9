import Aggregate.Data.Lenient
import Aggregate.Data.Overlay
import Aggregate.Data.Toml
import Aggregate.Data.Toml.Wrapped
import Aggregate.Settings.Environment
import Aggregate.Settings.Reading

/-!
# Loading settings

Settings come from several sources, each laid over those before it: the usual values, a TOML text, and variables.

- `Settings.ofText`: from a text;
- `Settings.ofFile`: from a file that has to exist;
- `Settings.load`: from a file, if it exists, and variables.
-/

namespace Aggregate

/-- Why there are no settings. -/
inductive SettingsError where
  /-- The file does not exist. -/
  | noFile
  /-- A text is not TOML. -/
  | malformed
  /-- The sources together are no settings. -/
  | unreadable
  /-- Something is wrong with the settings. -/
  | invalid (problems : List Problem)
  deriving DecidableEq

/-- The text of a settings error. -/
def SettingsError.message : SettingsError → String
  | noFile => "Configuration error: Configuration file not found"
  | malformed => "Configuration error: Configuration is not valid TOML"
  | unreadable => "Configuration error: Configuration has values of a wrong type"
  | invalid problems =>
    "Configuration error: Configuration validation failed:\n" ++ "\n".intercalate (problems.map (·.message))

namespace Settings

/-- What every other source is laid over. -/
def defaults : Data :=
  .table [
    ("logging", .table [("format", .text "text"), ("level", .text "info"), ("output", .text "stdout")]),
    ("planning", .table [("max_depth", .int 32)])]

/-- The entries of one source, each laid over a document at the place of its key. -/
def layOver (below : Data) (entries : List (String × Data)) : Data :=
  entries.foldl (fun below entry => Data.put (Location.ofText entry.1) entry.2 below) below

/-- The entries of a TOML text. -/
def textEntries (text : String) : Except SettingsError (List (String × Data)) :=
  match (Toml.read text).bind Toml.unwrap? with
  | some (.table entries) => .ok entries
  | _ => .error .malformed

/-- The settings that the sources give together. -/
def ofSources (sources : List (List (String × Data))) : Except SettingsError Settings :=
  match read .lenient (sources.foldl layOver defaults) with
  | none => .error .unreadable
  | some s =>
    match s.problems with
    | [] => .ok s
    | problems => .error (.invalid problems)

/-- The settings in a text. -/
def ofText (text : String) : Except SettingsError Settings := do
  ofSources [← textEntries text]

/-- The settings in a file that has to exist. -/
def ofFile : (content : Option String) → Except SettingsError Settings
  | some content => ofText content
  | none => .error .noFile

/-- The settings in a file, if it exists, with those that variables give laid over them. -/
def load (content : Option String) (vars : List (String × String)) : Except SettingsError Settings := do
  let inFile ← match content with
    | some content => textEntries content
    | none => pure []
  ofSources [inFile, Environment.entries vars]

end Settings

end Aggregate
