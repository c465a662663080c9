import Aggregate.Plan.Declared
import Aggregate.Plan.Insertion

/-!
# Plans

The actions that insert, update, save or delete an aggregate, in the order in which they have to run.

- `Plan.insert`: the root, then the entities below it;
- `Plan.update`: the rows at all declared paths are deleted, the longer paths first, then the root is updated and the
  entities below it are inserted anew;
- `Plan.save`: an insert for a root without identifier, an update for others;
- `Plan.delete`: the rows at all declared paths, then the row of the root.
-/

namespace Aggregate.Plan

variable (schema : Schema) (limit : Nat)

/-- Deletes for the rows at all declared paths below a root, a path after the paths that extend it. -/
def deletesBelow (type : String) (rootId : Value) : Except ResolutionError (List Action) := do
  let declared ← schema.declared limit type
  return declared.reverse.map fun d => .delete d.target rootId d.path

/-- The identifier of a stored root. -/
def rootId (root : Value) : Except ChangeError Value := do
  let e ← (schema.entityOf root).mapError .mapping
  let property ← e.requiredId.mapError .mapping
  let id ← (schema.read root property).mapError .mapping
  if id.isNull then throw (.precondition (.unidentifiedRoot e.name)) else return id

/-- The type of a root. -/
def rootType (root : Value) : Except ChangeError String :=
  match root.type? with
  | some type => .ok type
  | none => .error (.mapping (.notAnEntity root))

/-- The plan that inserts the draft's aggregate. Its root has the number `origin`. -/
def insert (origin : Nat) : Edit ChangeError (List Action) := do
  let type ← Edit.ofExcept id (rootType (← get).root)
  let inserts ← insertsBelow schema limit limit (.root origin) 0 1
  return .insertRoot type (.root origin) none :: inserts

/-- The plan that updates the draft's aggregate. -/
def update (origin : Nat) : Edit ChangeError (List Action) := do
  let root := (← get).root
  let type ← Edit.ofExcept id (rootType root)
  let id ← Edit.ofExcept id (rootId schema root)
  let deletes ← Edit.ofExcept .resolution (deletesBelow schema limit type id)
  let position := deletes.length
  let inserts ← insertsBelow schema limit limit (.root origin) position (position + 1)
  return deletes ++ .updateRoot type (.root origin) :: inserts

/-- The plan that saves the draft's aggregate, be it new or stored. -/
def save (origin : Nat) : Edit ChangeError (List Action) := do
  if ← Edit.ofExcept .mapping (schema.isNew (← get).root) then insert schema limit origin
  else update schema limit origin

/-- The plan that deletes an aggregate. -/
def delete (type : String) (rootId : Value) : Except ChangeError (List Action) := do
  let deletes ← (deletesBelow schema limit type rootId).mapError .resolution
  return deletes ++ [.delete type rootId .root]

end Aggregate.Plan
