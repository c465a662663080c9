import Aggregate.Directory
import Aggregate.Logging.Basic
import Aggregate.Logging.Directive

/-!
# Starting to log

What is decided before the first line is logged: which modules have levels of their own, how lines are written and
where they go. Variables count for more than settings.

- `Logging.start`: the decisions, in order, up to the opening of the log file.
-/

namespace Aggregate.Logging

/-- Why logging cannot start. -/
inductive StartError where
  /-- The settings give a module a level that there is not. -/
  | moduleLevel
  /-- A variable gives a module a level that there is not. -/
  | variableLevel
  | choice (defect : LogDefect)
  | openFile (cause : Directory.OpenError)
  deriving DecidableEq, Repr

/-- The text of a start error. -/
def StartError.message : StartError → String
  | moduleLevel => "Invalid log directive"
  | variableLevel => "Invalid log directive from env"
  | choice defect => defect.message
  | openFile .folder => "Failed to create log directory"
  | openFile .file => "Failed to open log file"

/-- Variables with their values. -/
abbrev Variables := List (String × String)

/-! ## Levels of modules -/

/-- Whether a module can be given a level. -/
def isEntry (entry : String × String) : Bool := isDirective (entry.1 ++ "=" ++ entry.2)

/-- The entry of a text like `store = debug`, if it is one. -/
def directive? (text : String) : Option (String × String) :=
  match (text.splitOn "=").map Unicode.trim with
  | [module, level] => if module.isEmpty then none else some (module, level)
  | _ => none

/-- The entries of a text like `store=debug,plan=trace`; other parts of it do not count. -/
def directives (text : String) : List (String × String) := (text.splitOn ",").filterMap directive?

/-- The levels of single modules, from the settings and from a variable. They are not looked at if another variable
says what is logged, or if nothing is. -/
def moduleLevels (s : LogSettings) (vars : Variables) : Except StartError (List (String × String)) :=
  let given := directives ((vars.lookup "AGGREGATE_LOG_MODULES").getD "")
  if (vars.lookup "AGGREGATE_LOG").isSome || s.level = "off" then .ok []
  else if !s.modules.all isEntry then .error .moduleLevel
  else if !given.all isEntry then .error .variableLevel
  else .ok (s.modules ++ given)

/-! ## Format and output -/

/-- How lines are written: as a variable says, if that makes sense, or else as the settings say. -/
def format (s : LogSettings) (vars : Variables) : Except LogDefect LogFormat :=
  match (vars.lookup "AGGREGATE_LOG_FORMAT").bind LogFormat.ofName? with
  | some format => .ok format
  | none => LogFormat.choose s.format

/-- Where lines go: as a variable says, if it is there, or else as the settings say. -/
def output (s : LogSettings) (vars : Variables) : Except LogDefect LogOutput :=
  LogOutput.choose ((vars.lookup "AGGREGATE_LOG_OUTPUT").getD s.output)

/-! ## Start -/

/-- What is decided before the first line is logged. -/
structure Decision where
  modules : List (String × String)
  format : LogFormat
  output : LogOutput
  deriving DecidableEq, Repr

/-- The decisions that settings and variables lead to. -/
def settle (s : LogSettings) (vars : Variables) : Except StartError Decision := do
  let modules ← moduleLevels s vars
  let format ← (format s vars).mapError .choice
  let output ← (output s vars).mapError .choice
  return ⟨modules, format, output⟩

/-- Starts to log in a directory, with what is in it afterwards. -/
def start (s : LogSettings) (vars : Variables) (d : Directory) : Except StartError Decision × Directory :=
  match settle s vars with
  | .error e => (.error e, d)
  | .ok decision =>
    if decision.output ≠ .file then (.ok decision, d)
    else
      match d.openFile s.file with
      | (.error e, d) => (.error (.openFile e), d)
      | (.ok _, d) => (.ok decision, d)

end Aggregate.Logging
