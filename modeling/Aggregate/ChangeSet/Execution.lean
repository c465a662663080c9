import Aggregate.ChangeSet.Basic

/-!
# Execution

Executing a change set hands its actions to an executor, one after another, and writes every identifier that comes
back into the aggregate, so that later actions, and in the end the change set, see it.

- `Executor`: what carries out one action, given the actions carried out before;
- `Agent`: an executor that may also put other values into the aggregates on the way;
- `Action.backFill` writes an identifier back, by the types of the workspace or by others, whose property writes do not
  go on record;
- `ChangeSet.executeBy` runs a change set by an agent; it stops at the first failure. `ChangeSet.execute` runs it by an
  executor.
-/

namespace Aggregate

/-- What an executor answers: the identifier it made up, if any, or the reason of its failure. -/
structure Reply (σ : Type) where
  answer : Except String (Option Value)
  /-- The properties it set on the way. -/
  writes : List Write
  state : σ

/-- Carries out one action, given the actions carried out before it, and the executor's own state. -/
abbrev Executor (σ : Type) := Workspace → Action → List Action → σ → Reply σ

/-- The same executor, with none of the properties it sets on record. -/
def Executor.offRecord {σ : Type} (executor : Executor σ) : Executor σ := fun w a executed s =>
  { executor w a executed s with writes := [] }

/-- What carrying out one action leaves behind. -/
structure Outcome (σ : Type) where
  answer : Except String (Option Value)
  workspace : Workspace
  state : σ

/-- Carries out one action, given the actions carried out before it, and may put values at addresses on the way. -/
abbrev Agent (σ : Type) := Workspace → Action → List Action → σ → Outcome σ

/-- The executor as an agent. It leaves the aggregates alone. -/
def Executor.agent {σ : Type} (executor : Executor σ) : Agent σ := fun w a executed s =>
  let reply := executor w a executed s
  ⟨reply.answer, w.record reply.writes, reply.state⟩

namespace Action

/-- The action with what its executor answered. -/
def answered (a : Action) : Option Value → Action
  | some id => a.withGeneratedId id
  | none => a

/-- Writes the identifier made up for an action's entity into the entity. Its type is one of `schema`, unless there are
`other` types. -/
def backFill (other : Option Schema) (schema : Schema) (a : Action) : Edit ChangeError Unit :=
  match a.generatedId, a.address? with
  | some id, some node => do
    match (other.getD schema).entity? a.type with
    | none => throw (.precondition (.unregistered a.type id))
    | some e =>
      match e.idProperty with
      | none => throw (.precondition (.noIdProperty e.name id))
      | some property => do
        let v ← (Edit.value schema node).wrapError .resolution
        if v.isNull then throw (.precondition (.noValue node id))
        let bean ← Edit.ofExcept .mapping (Bean.ofValue e v)
        Edit.record (if other.isNone then [bean.write property id] else [])
        let bean ← Edit.ofExcept .mapping (bean.set property id)
        (Edit.assign schema node bean.toValue).wrapError .resolution
  | _, _ => return ()

/-- The address of a root action whose entity is of the given type. -/
def rootAddress? (type : String) (w : Workspace) (a : Action) : Option Address :=
  match a.isRoot, a.address? with
  | true, some node =>
    match w.current node with
    | .ok v => if v.type? = some type then some node else none
    | .error _ => none
  | _, _ => none

/-- Writes an identifier back in a workspace. -/
def backFillIn (other : Option Schema) (w : Workspace) (a : Action) : Except ChangeError Unit × Workspace :=
  match a.address? with
  | some node => w.edit node.origin (a.backFill other w.schema)
  | none => (.ok (), w)

end Action

/-- What a run of actions leaves behind. -/
structure Run (σ : Type) where
  /-- The address of the root, if a root action ran. -/
  answer : Except ChangeError (Option Address)
  /-- All actions, with the identifiers made up so far. -/
  actions : List Action
  workspace : Workspace
  state : σ

namespace ChangeSet

variable {σ : Type} (other : Option Schema)

/-- Runs the pending actions after the executed ones. Identifiers are written back by the types of the workspace, unless
there are other ones. -/
def runBy (agent : Agent σ) (type : String) :
    (executed pending : List Action) → Option Address → Workspace → σ → Run σ
  | executed, [], root?, w, s => ⟨.ok root?, executed, w, s⟩
  | executed, a :: rest, root?, w, s =>
    let outcome := agent w a executed s
    let w := outcome.workspace
    match outcome.answer with
    | .error cause => ⟨.error (.execution ⟨a.kind, a.describe w, cause⟩), executed ++ a :: rest, w, outcome.state⟩
    | .ok id? =>
      let a := a.answered id?
      let root? := (a.rootAddress? type w).or root?
      match a.backFillIn other w with
      | (.error e, w) => ⟨.error e, executed ++ a :: rest, w, outcome.state⟩
      | (.ok (), w) => runBy agent type (executed ++ [a]) rest root? w outcome.state

/-- Runs the pending actions by an executor. -/
def run (executor : Executor σ) (type : String) (executed pending : List Action) (root? : Option Address)
    (w : Workspace) (s : σ) : Run σ :=
  runBy other executor.agent type executed pending root? w s

/-- What an execution leaves behind. -/
structure Executed (σ : Type) where
  answer : Except ChangeError Unit
  set : ChangeSet
  workspace : Workspace
  state : σ

/-- The change set after a run. On success its entity is the root as it stands then. -/
def finish (set : ChangeSet) (r : Run σ) : Executed σ :=
  let set := { set with actions := r.actions }
  match r.answer with
  | .error e => ⟨.error e, set, r.workspace, r.state⟩
  | .ok none => ⟨.ok (), set, r.workspace, r.state⟩
  | .ok (some root) =>
    match r.workspace.current root with
    | .error e => ⟨.error (.resolution e), set, r.workspace, r.state⟩
    | .ok v => ⟨.ok (), { set with entity := some v }, r.workspace, r.state⟩

/-- Executes a change set by an agent. -/
def executeBy (agent : Agent σ) (set : ChangeSet) (w : Workspace) (s : σ) : Executed σ :=
  set.finish (runBy other agent set.type [] set.actions none w s)

/-- Executes a change set by an executor. -/
def execute (executor : Executor σ) (set : ChangeSet) (w : Workspace) (s : σ) : Executed σ :=
  set.finish (run other executor set.type [] set.actions none w s)

end ChangeSet

end Aggregate
