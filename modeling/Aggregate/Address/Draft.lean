import Aggregate.Address.Basic

/-!
# Drafts

A draft is an aggregate under work: the value of its root as it stands, and the property writes so far. An edit reads
and changes a draft and keeps what it changed when it fails.

- `Edit`, with reading (`Edit.value`) and assigning (`Edit.assign`) at an address;
- `Edit.children`: the addresses of the entities that an entity holds. A set in no promised order is put in order of
  insertion first, unless it is immutable, so that its positions stay valid.
-/

namespace Aggregate

/-- An aggregate under work. -/
structure Draft where
  root : Value
  writes : List Write

/-- A computation on a draft that may fail. -/
abbrev Edit (ε : Type) := ExceptT ε (StateM Draft)

/-- The strategies by which a property's value holds its entities; none for a value of another kind than declared. -/
def Property.strategies (p : Property) (held : Value) : Option (List Strategy) :=
  match p.holding, held with
  | _, .null => some []
  | .list, .list items => some ((List.range items.length).map .listIndex)
  | .map, .map entries => some (entries.map fun entry => .mapKey entry.1)
  | .set, .set _ elements => some ((List.range elements.length).map .setPosition)
  | .list, _ | .map, _ | .set, _ => none
  | .single, _ | .embedded, _ | .scalar, _ => some [.direct]

/-- The value of a property with a stable order of its elements, where that differs from the value at hand. -/
def Property.settled? (p : Property) (held : Value) : Option Value :=
  match p.holding, p.immutable, held with
  | .set, false, .set .hashed elements => some (.set .linked elements)
  | _, _, _ => none

namespace Edit

variable {α δ ε : Type}

/-- An answer that does not depend on the draft, with its error wrapped. -/
def ofExcept (wrap : δ → ε) (answer : Except δ α) : Edit ε α := fun draft =>
  (answer.mapError wrap, draft)

/-- Adds to the record of writes. -/
def record (writes : List Write) : Edit ε Unit := fun draft =>
  (.ok (), { draft with writes := draft.writes ++ writes })

/-- The same computation with its errors wrapped. -/
def wrapError (wrap : δ → ε) (edit : Edit δ α) : Edit ε α := fun draft =>
  match edit draft with
  | (answer, draft) => (answer.mapError wrap, draft)

variable (schema : Schema)

/-- The value at an address. -/
def value (node : Address) : Edit ResolutionError Value := fun draft =>
  (node.current schema draft.root, draft)

/-- Puts a value at an address. -/
def assign (node : Address) (x : Value) : Edit ResolutionError Unit := fun draft =>
  let writes := draft.writes ++ node.assignWrites schema draft.root x
  match node.assign schema draft.root x with
  | .ok root => (.ok (), { root, writes })
  | .error e => (.error e, { draft with writes })

/-- Sets a property of the value at an address, whose value is `holder`. -/
def settle (node : Address) (holder : Value) (relation : Relation) (x : Value) : Edit ResolutionError Unit := do
  record (schema.writes holder relation.property.name x)
  let holder ← ofExcept (.property relation.path node) (schema.write holder relation.property.name x)
  assign schema node holder

/-- The addresses of the entities that the value at `node` holds in one property. -/
def childrenBy (node : Address) (owner : String) (property : Property) : Edit ResolutionError (List Address) := do
  let relation : Relation := ⟨owner, property, node.path.child property.name⟩
  let holder ← value schema node
  let held ← ofExcept id (node.readRelation schema holder relation)
  match property.strategies held with
  | none => throw (.unsupportedContainer relation.path held.kind node)
  | some strategies => do
    match property.settled? held with
    | some x => settle schema node holder relation x
    | none => pure ()
    return strategies.map (.child node relation)

/-- The addresses of the entities that the value at `node` holds in some references, one after another. -/
def childrenAlong (node : Address) (owner : String) : List Reference → Edit ResolutionError (List Address)
  | [] => return []
  | reference :: rest => do
    let here ← childrenBy schema node owner reference.property
    let further ← childrenAlong node owner rest
    return here ++ further

/-- The addresses of the entities that the value at `node` holds. -/
def children (node : Address) : Edit ResolutionError (List Address) := do
  let v ← value schema node
  let e ← ofExcept .mapping (schema.entityOf v)
  childrenAlong schema node e.name e.references

end Edit

end Aggregate
