import Aggregate.Data.Reading
import Aggregate.Schema.EntityType

/-!
# Reading entity types

The declaration of an entity type as a document. Only the names have to be given.
-/

namespace Aggregate

/-- All ways to hold a value. -/
def Holding.all : List Holding := [.scalar, .single, .embedded, .list, .map, .set]

/-- The holding with a name. -/
def Holding.ofName? (name : String) : Option Holding := Holding.all.find? (·.name == name)

/-- Reads the declaration of a property. -/
def Property.read (r : Reading) (d : Data) : Option Property := do
  let field ← r.record ["name", "target", "shape", "key_column", "immutable"] d
  return {
    name := ← Reading.required r.text (field "name")
    target := ← Reading.optional r.text (field "target")
    holding := ← Reading.orElse .scalar (fun d => (r.choice (Holding.all.map (·.name)) d).bind Holding.ofName?)
      (field "shape")
    keyColumn := ← Reading.optional r.text (field "key_column")
    immutable := ← Reading.orElse false r.flag (field "immutable") }

/-- Reads the declaration of an entity type. -/
def EntityType.read (r : Reading) (d : Data) : Option EntityType := do
  let field ← r.record ["name", "id_property", "properties"] d
  return {
    name := ← Reading.required r.text (field "name")
    idProperty := ← Reading.optional r.text (field "id_property")
    properties := ← Reading.orElse [] (Reading.items (Property.read r)) (field "properties") }

/-- Reads the entity types that a document lists under `entities`. -/
def EntityType.readAll (r : Reading) (d : Data) : Option (List EntityType) := do
  let field ← r.record ["entities"] d
  Reading.orElse [] (Reading.items (EntityType.read r)) (field "entities")

end Aggregate
