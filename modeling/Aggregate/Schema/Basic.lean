import Aggregate.Schema.EntityType
import Aggregate.Value.Order

/-!
# Schemas

The entity types that values are read by, each found under its own name.

- `Schema`: sound declarations with distinct names, which the type keeps;
- `Schema.register` and `Schema.ofList` build schemas;
- `MappingError`: why a schema has no answer for a type, a property or a value.
-/

namespace Aggregate

/-- Why a schema has no answer. -/
inductive MappingError where
  /-- No entity type has this name. -/
  | unknownEntity (type : String)
  /-- The entity type declares no identifier property. -/
  | missingIdProperty (type : String)
  /-- The entity type declares no such property. -/
  | undeclaredProperty (owner property : String)
  /-- The value is not an entity. -/
  | notAnEntity (found : Value)
  /-- The value is not an entity of the expected type. -/
  | wrongEntity (found : Value) (expected : String)
  /-- The declaration of the entity type is defective. -/
  | defective (owner : String) (defect : EntityType.Defect)
  /-- A type of this name is registered already. -/
  | registeredTwice (owner : String)
  deriving DecidableEq

/-- The text of a mapping error. -/
def MappingError.message : MappingError → String
  | unknownEntity type => "No persistent entity registered for type " ++ type
  | missingIdProperty type => "Entity type " ++ type ++ " has no identifier property"
  | undeclaredProperty owner property => "Property " ++ property ++ " is not declared on entity type " ++ owner
  | notAnEntity found => "Expected an entity value but found " ++ found.render
  | wrongEntity found expected => "Expected an entity value but found " ++ found.render ++ " for " ++ expected
  | defective owner defect => "Invalid mapping for entity type " ++ owner ++ ": " ++ defect.message
  | registeredTwice owner => "Invalid mapping for entity type " ++ owner ++ ": entity registered twice"

/-- The identifier property of an entity type. -/
def EntityType.requiredId (e : EntityType) : Except MappingError String :=
  match e.idProperty with
  | some property => .ok property
  | none => .error (.missingIdProperty e.name)

theorem EntityType.requiredId_eq_ok {e : EntityType} {name : String} :
    e.requiredId = .ok name ↔ e.idProperty = some name := by
  unfold requiredId
  cases e.idProperty <;> simp

/-- Sound entity types with distinct names. -/
structure Schema where
  types : List EntityType
  sound : ∀ e ∈ types, e.defect? = none
  distinct : (types.map EntityType.name).Nodup

namespace Schema

/-- The schema without entity types. -/
def empty : Schema := ⟨[], by simp, by simp⟩

/-- The number of entity types. -/
def size (s : Schema) : Nat := s.types.length

/-- The entity type of a name. -/
def entity? (s : Schema) (type : String) : Option EntityType :=
  s.types.find? (·.name == type)

/-- The entity type of a name, which has to be registered. -/
def entity (s : Schema) (type : String) : Except MappingError EntityType :=
  match s.entity? type with
  | some e => .ok e
  | none => .error (.unknownEntity type)

/-- The entity type of a value. -/
def entityOf (s : Schema) : Value → Except MappingError EntityType
  | .entity type _ => s.entity type
  | v => .error (.notAnEntity v)

/-- The schema with one more entity type, which has to be sound and to have a new name. -/
def register (s : Schema) (e : EntityType) : Except MappingError Schema :=
  match hs : e.defect? with
  | some defect => .error (.defective e.name defect)
  | none =>
    if hd : e.name ∈ s.types.map EntityType.name then .error (.registeredTwice e.name)
    else .ok {
      types := s.types ++ [e]
      sound := by
        intro f hf
        rcases List.mem_append.1 hf with hf | hf
        · exact s.sound f hf
        · rw [List.mem_singleton.1 hf]; exact hs
      distinct := by
        rw [List.map_append, List.nodup_append]
        refine ⟨s.distinct, by simp, ?_⟩
        intro a ha b hb hab
        rw [List.map_cons, List.map_nil, List.mem_singleton] at hb
        exact hd (by rw [← hb, ← hab]; exact ha) }

/-- The schema with several more entity types, registered in order. -/
def registerAll (s : Schema) (es : List EntityType) : Except MappingError Schema :=
  es.foldlM register s

/-- The schema of some entity types. -/
def ofList (es : List EntityType) : Except MappingError Schema :=
  empty.registerAll es

theorem entity_eq_ok {s : Schema} {type : String} {e : EntityType} :
    s.entity type = .ok e ↔ s.entity? type = some e := by
  unfold entity
  cases s.entity? type <;> simp

theorem entity?_name {s : Schema} {type : String} {e : EntityType} (h : s.entity? type = some e) : e.name = type := by
  simpa using List.find?_some h

end Schema

end Aggregate
