import Aggregate.Schema.Reading
import Aggregate.Settings.Basic

/-!
# Reading settings

Settings as a document. All parts may be left out.
-/

namespace Aggregate

/-- Reads choices for logging. -/
def LogSettings.read (r : Reading) (d : Data) : Option LogSettings := do
  let field ← r.record ["level", "format", "output", "file", "color", "modules"] d
  let absent : LogSettings := {}
  return {
    level := ← Reading.orElse absent.level r.text (field "level")
    format := ← Reading.orElse absent.format r.text (field "format")
    output := ← Reading.orElse absent.output r.text (field "output")
    file := ← Reading.orElse absent.file r.text (field "file")
    color := ← Reading.orElse absent.color r.flag (field "color")
    modules := ← Reading.orElse absent.modules r.texts (field "modules") }

/-- Reads how deep plans reach. -/
def Settings.readDepth (r : Reading) (d : Data) : Option Nat := do
  let field ← r.record ["max_depth"] d
  Reading.orElse ({} : Settings).maxDepth r.count (field "max_depth")

/-- Reads settings. -/
def Settings.read (r : Reading) (d : Data) : Option Settings := do
  let field ← r.record ["planning", "logging", "entities"] d
  let absent : Settings := {}
  return {
    maxDepth := ← Reading.orElse absent.maxDepth (readDepth r) (field "planning")
    logging := ← Reading.orElse absent.logging (LogSettings.read r) (field "logging")
    entities := ← Reading.orElse absent.entities (Reading.items (EntityType.read r)) (field "entities") }

end Aggregate
