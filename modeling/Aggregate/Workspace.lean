import Aggregate.Address.Draft
import Aggregate.Plan.Action

/-!
# Workspaces

A workspace holds the roots of several aggregates, numbered from `0`, with the schema by which their addresses are
followed. Actions refer to values by address, so an assignment is seen through all of them.

- `Workspace.edit` runs an edit on one aggregate; `Workspace.begin` adds an aggregate and runs an edit on it;
- `Action.value?`, `Action.describe`, `Action.render`: what an action writes as things stand.
-/

namespace Aggregate

/-- The aggregates under work. -/
structure Workspace where
  schema : Schema
  roots : List Value
  writes : List Write

namespace Workspace

variable {ε α : Type}

/-- The workspace without aggregates. -/
def empty (schema : Schema) : Workspace := ⟨schema, [], []⟩

/-- The value of a root. -/
def root (w : Workspace) (number : Nat) : Value := w.roots.getD number .null

/-- The value at an address. -/
def current (w : Workspace) (node : Address) : Except ResolutionError Value :=
  node.current w.schema (w.root node.origin)

/-- The strategy of an address. That of a root is its value. -/
def strategy (w : Workspace) : Address → Strategy
  | .root number => .known (w.root number)
  | .child _ _ strategy => strategy

/-- Adds to the record of writes. -/
def record (w : Workspace) (writes : List Write) : Workspace := { w with writes := w.writes ++ writes }

/-- Runs an edit on the aggregate of one root. -/
def edit (w : Workspace) (number : Nat) (e : Edit ε α) : Except ε α × Workspace :=
  match e ⟨w.root number, w.writes⟩ with
  | (answer, draft) => (answer, { w with roots := w.roots.set number draft.root, writes := draft.writes })

/-- Adds an aggregate. -/
def addRoot (w : Workspace) (v : Value) : Workspace := { w with roots := w.roots ++ [v] }

/-- Adds an aggregate and runs an edit on it, which is told the number of its root. -/
def begin (w : Workspace) (v : Value) (e : Nat → Edit ε α) : Except ε α × Workspace :=
  (w.addRoot v).edit w.roots.length (e w.roots.length)

/-- Puts a value at an address. -/
def assign (w : Workspace) (node : Address) (x : Value) : Except ResolutionError Unit × Workspace :=
  w.edit node.origin (Edit.assign w.schema node x)

/-- The addresses of the entities that the value at an address holds. -/
def children (w : Workspace) (node : Address) : Except ResolutionError (List Address) × Workspace :=
  w.edit node.origin (Edit.children w.schema node)

end Workspace

namespace Action

/-- The value an action writes; a delete writes none. -/
def value? (w : Workspace) (a : Action) : Except ResolutionError (Option Value) :=
  match a.address? with
  | none => .ok none
  | some node => (w.current node).map some

/-- The text of what an action writes or deletes. -/
def describe (w : Workspace) (a : Action) : String :=
  match a with
  | delete type rootId path => type ++ " at " ++ path.render ++ " of root " ++ rootId.render
  | _ =>
    match a.value? w with
    | .ok (some v) => v.render
    | .ok none => a.type
    | .error e => a.type ++ " (unresolvable: " ++ e.message ++ ")"

/-- The text of an action. -/
def render (w : Workspace) (a : Action) : String :=
  a.kind.label ++ "(" ++ a.describe w ++ ")"

end Action

end Aggregate
