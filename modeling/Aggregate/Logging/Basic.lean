/-!
# Logging

What is logged, how it is written, and where it goes.

- `LogSettings`: the choices, as texts that need not make sense;
- `LogSettings.defect?`: the first choice that makes none.
-/

namespace Aggregate

/-- How log lines are written. -/
inductive LogFormat where
  | json
  | text
  deriving DecidableEq, Repr

/-- Where log lines go. -/
inductive LogOutput where
  | stdout
  | stderr
  | file
  deriving DecidableEq, Repr

/-- The format with a name. -/
def LogFormat.ofName? : String → Option LogFormat
  | "json" => some json
  | "text" => some text
  | _ => none

/-- The output with a name. -/
def LogOutput.ofName? : String → Option LogOutput
  | "stdout" => some stdout
  | "stderr" => some stderr
  | "file" => some file
  | _ => none

/-- Choices for logging. -/
structure LogSettings where
  /-- The level of what is logged, if nothing else is said for a module. -/
  level : String := "info"
  format : String := "text"
  output : String := "stdout"
  /-- The place of the file for the output of that name. -/
  file : String := "aggregate-change.log"
  color : Bool := true
  /-- The levels of single modules. -/
  modules : List (String × String) := []
  deriving DecidableEq, Repr

/-- A choice that makes no sense. -/
inductive LogDefect where
  | format (name : String)
  | output (name : String)
  deriving DecidableEq, Repr

/-- The text of a defect. -/
def LogDefect.message : LogDefect → String
  | format name => "Invalid log format: " ++ name ++ " (must be 'json' or 'text')"
  | output name => "Invalid log output: " ++ name ++ " (must be 'stdout', 'stderr', or 'file')"

/-- The format that is chosen by name. -/
def LogFormat.choose (name : String) : Except LogDefect LogFormat :=
  match ofName? name with
  | some format => .ok format
  | none => .error (.format name)

/-- The output that is chosen by name. -/
def LogOutput.choose (name : String) : Except LogDefect LogOutput :=
  match ofName? name with
  | some output => .ok output
  | none => .error (.output name)

/-- The first choice that makes no sense. -/
def LogSettings.defect? (s : LogSettings) : Option LogDefect :=
  match LogFormat.choose s.format with
  | .error defect => some defect
  | .ok _ =>
    match LogOutput.choose s.output with
    | .error defect => some defect
    | .ok _ => none

end Aggregate
