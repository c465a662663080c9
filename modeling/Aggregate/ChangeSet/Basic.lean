import Aggregate.Plan.Basic
import Aggregate.Workspace

/-!
# Change sets

A change set is the plan for one aggregate together with the aggregate's root.

- `ChangeSet.planInsert`, `planUpdate`, `planSave`: the change set that stores a root;
- `ChangeSet.planDelete`: the change set that deletes a root.
-/

namespace Aggregate

/-- What a change set is for. -/
inductive ChangeKind where
  | save
  | delete
  deriving DecidableEq, Repr

/-- The name of a kind of change. -/
def ChangeKind.label : ChangeKind → String
  | save => "SAVE"
  | delete => "DELETE"

/-- The plan for one aggregate. -/
structure ChangeSet where
  kind : ChangeKind
  /-- The entity type of the root. -/
  type : String
  /-- The root, after an execution with its identifiers filled in. -/
  entity : Option Value
  actions : List Action
  deriving DecidableEq

namespace ChangeSet

variable (limit : Nat) (w : Workspace)

/-- The change set that stores `root` by the plan an edit makes. -/
def planWith (root : Value) (plan : Nat → Edit ChangeError (List Action)) :
    Except ChangeError ChangeSet × Workspace :=
  match w.begin root plan with
  | (answer, w) =>
    (do let actions ← answer
        let type ← Plan.rootType root
        return ⟨.save, type, some root, actions⟩, w)

/-- The change set that inserts a root. -/
def planInsert (root : Value) : Except ChangeError ChangeSet × Workspace :=
  planWith w root (Plan.insert w.schema limit)

/-- The change set that updates a root. -/
def planUpdate (root : Value) : Except ChangeError ChangeSet × Workspace :=
  planWith w root (Plan.update w.schema limit)

/-- The change set that inserts or updates a root. -/
def planSave (root : Value) : Except ChangeError ChangeSet × Workspace :=
  planWith w root (Plan.save w.schema limit)

/-- The change set that deletes the root of a type with an identifier. -/
def planDelete (schema : Schema) (type : String) (rootId : Value) (root : Option Value) :
    Except ChangeError ChangeSet := do
  let actions ← Plan.delete schema limit type rootId
  return ⟨.delete, type, root, actions⟩

end ChangeSet

end Aggregate
