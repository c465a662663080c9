import Aggregate.Logging.Basic
import Aggregate.Schema.Basic

/-!
# Settings

How deep plans reach, what is logged, and which entity types there are.

- `Settings.problems`: all that is wrong with settings;
- `Settings.schema`: the schema of the declared entity types.
-/

namespace Aggregate

/-- The settings of a program that saves aggregates. -/
structure Settings where
  /-- How many relations deep plans reach. -/
  maxDepth : Nat := 32
  logging : LogSettings := {}
  entities : List EntityType := []

/-- Something wrong with settings. -/
inductive Problem where
  /-- Plans could not reach any relation. -/
  | noDepth
  | logging (defect : LogDefect)
  | entity (name : String) (defect : EntityType.Defect)
  /-- An entity type is declared again. -/
  | repeated (name : String)
  deriving DecidableEq, Repr

/-- The text of a problem. -/
def Problem.message : Problem → String
  | noDepth => "Planning: max_depth must be greater than zero"
  | logging defect => "Logging: " ++ defect.message
  | entity name defect => "Entity '" ++ name ++ "': " ++ defect.message
  | repeated name => "Entity '" ++ name ++ "': Duplicate entity declaration"

namespace Settings

/-- What is wrong with a declaration behind others of the given names. -/
def entityProblems (names : List String) (e : EntityType) : List Problem :=
  (e.defect?.map (.entity e.name)).toList ++ if e.name ∈ names then [.repeated e.name] else []

/-- What is wrong with declarations behind others of the given names. -/
def problemsBehind (names : List String) : List EntityType → List Problem
  | [] => []
  | e :: rest => entityProblems names e ++ problemsBehind (e.name :: names) rest

/-- All that is wrong with the settings. -/
def problems (s : Settings) : List Problem :=
  (if s.maxDepth = 0 then [.noDepth] else []) ++ (s.logging.defect?.map .logging).toList ++
    problemsBehind [] s.entities

/-- The schema of the declared entity types. -/
def schema (s : Settings) : Except MappingError Schema := Schema.ofList s.entities

end Settings

end Aggregate
