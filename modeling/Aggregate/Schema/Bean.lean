import Aggregate.Schema.Basic
import Aggregate.Value.Fields

/-!
# Beans

An entity together with the entity type it is read by. Only declared properties can be read and written.

- `Bean.get` and `Bean.set`;
- `Schema.read` and `Schema.write`: one property of a value, by the value's own type;
- `Write`: a record of one attempt to set a property, carried out or refused.
-/

namespace Aggregate

/-- An entity of a known type. -/
structure Bean where
  type : EntityType
  fields : Fields

/-- An attempt to set a property. -/
structure Write where
  type : String
  property : String
  value : Value
  deriving DecidableEq

/-- The text of a write. -/
def Write.render (w : Write) : String := w.type ++ "." ++ w.property ++ "=" ++ w.value.render

namespace Bean

/-- A value as an entity of the given type. -/
def ofValue (e : EntityType) : Value → Except MappingError Bean
  | .entity type fields =>
    if type = e.name then .ok ⟨e, fields⟩ else .error (.wrongEntity (.entity type fields) e.name)
  | v => .error (.wrongEntity v e.name)

/-- The entity as a value. -/
def toValue (b : Bean) : Value := .entity b.type.name b.fields

/-- The value of a declared property. -/
def get (b : Bean) (property : String) : Except MappingError Value :=
  if b.type.declares property then .ok (b.fields.get property)
  else .error (.undeclaredProperty b.type.name property)

/-- The entity with a declared property set. -/
def set (b : Bean) (property : String) (value : Value) : Except MappingError Bean :=
  if b.type.declares property then .ok { b with fields := b.fields.set property value }
  else .error (.undeclaredProperty b.type.name property)

/-- The record of setting a property. -/
def write (b : Bean) (property : String) (value : Value) : Write := ⟨b.type.name, property, value⟩

end Bean

namespace Schema

variable (s : Schema)

/-- A value as an entity of its own type. -/
def bean (v : Value) : Except MappingError Bean := do
  let e ← s.entityOf v
  Bean.ofValue e v

/-- A value as an entity of the named type. -/
def beanAs (type : String) (v : Value) : Except MappingError Bean := do
  let e ← s.entity type
  Bean.ofValue e v

/-- A property of a value. -/
def read (v : Value) (property : String) : Except MappingError Value := do
  let b ← s.bean v
  b.get property

/-- A value with a property set. -/
def write (v : Value) (property : String) (x : Value) : Except MappingError Value := do
  let b ← s.bean v
  let b ← b.set property x
  return b.toValue

/-- The record of setting a property of a value; there is none for a value that cannot be read as an entity. -/
def writes (v : Value) (property : String) (x : Value) : List Write :=
  match s.bean v with
  | .ok b => [b.write property x]
  | .error _ => []

/-- Whether an entity was never stored: its identifier is `null`. -/
def isNew (v : Value) : Except MappingError Bool := do
  let e ← s.entityOf v
  let property ← e.requiredId
  match v with
  | .entity _ fields => return (Fields.get fields property).isNull
  | _ => return true

end Schema

end Aggregate
