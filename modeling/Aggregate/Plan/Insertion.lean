import Aggregate.Address.Draft
import Aggregate.Plan.Error

/-!
# Insertion

The inserts for the entities below an entity, each entity before the entities it holds.

- `Plan.insertsBelow`: the inserts below an address, down to a limited depth.
-/

namespace Aggregate

/-- The column with the index or map key of the entity at an address. -/
def Address.columns : Address → Fields
  | root _ => []
  | child _ relation strategy =>
    match relation.property.isQualified, strategy.qualifier with
    | true, some qualifier => [(relation.property.keyColumnFor relation.owner, qualifier)]
    | _, _ => []

namespace Plan

/-- The inserts for the entities at some addresses, with `below` for the entities further down. The entity that holds
them is stored by the action at `holder`; `next` is the position of the first insert. -/
def insertsAt (schema : Schema) (below : Address → (holder next : Nat) → Edit ChangeError (List Action))
    (holder : Nat) : List Address → (next : Nat) → Edit ChangeError (List Action)
  | [], _ => return []
  | node :: rest, next => do
    let v ← (Edit.value schema node).wrapError .resolution
    match v.type? with
    | none => throw (.mapping (.notAnEntity v))
    | some type => do
      let inner ← below node next (next + 1)
      let further ← insertsAt schema below holder rest (next + 1 + inner.length)
      return .insert type node (some holder) node.columns none :: inner ++ further

/-- The inserts for the entities below an address, with `room` for so many more relations between. -/
def insertsBelow (schema : Schema) (limit : Nat) :
    (room : Nat) → Address → (holder next : Nat) → Edit ChangeError (List Action)
  | 0, node, _, _ => do
    match ← (Edit.children schema node).wrapError .resolution with
    | [] => return []
    | child :: _ => throw (.resolution (.depthExceeded child.path limit))
  | room + 1, node, holder, next => do
    let children ← (Edit.children schema node).wrapError .resolution
    insertsAt schema (insertsBelow schema limit room) holder children next

end Plan

end Aggregate
