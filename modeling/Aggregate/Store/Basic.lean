import Aggregate.ChangeSet.Execution

/-!
# Stores

An in-memory store keeps one row for each entity, in order of insertion, and makes up identifiers by counting.

- `Row` and `Store`, with the look-ups `rowsOf`, `find?`, `childrenOf`;
- `Store.allocate` makes up an identifier: the least number from the counter on that no row of the type has;
- `Store.run` carries out one action; `Store.executor` is the store as an executor.
-/

namespace Aggregate

/-- A stored entity. -/
structure Row where
  /-- The entity type whose table the row is in. -/
  type : String
  id : Value
  /-- The identifier of the root of the entity's aggregate. -/
  rootId : Value
  /-- The path from the root. -/
  path : Path
  /-- The identifier of the entity that holds this one. -/
  parentId : Option Value
  /-- The index or map key. -/
  columns : Fields
  value : Value
  deriving DecidableEq

/-- Whether the row is that of a root. -/
def Row.isRoot (r : Row) : Bool := r.path.isRoot

/-- Rows in order of insertion, and the counter for identifiers. -/
structure Store where
  schema : Schema
  rows : List Row
  nextId : Int64

/-- Why a store cannot carry out an action. -/
inductive StoreError where
  | resolution (cause : ResolutionError)
  | mapping (cause : MappingError)
  | noValue (kind : ActionKind)
  | noRoot
  | noDependency (type : String)
  | duplicateKey (id : Value) (type : String)
  | noSuchRow (type : String) (id : Value)
  deriving DecidableEq

/-- The text of a store error. -/
def StoreError.message : StoreError → String
  | resolution cause => cause.message
  | mapping cause => cause.message
  | noValue kind => kind.label ++ " addresses no value"
  | noRoot => "No root action ran before this insert"
  | noDependency type => "Insert of " ++ type ++ " ran before its dependency"
  | duplicateKey id type => "Duplicate key " ++ id.render ++ " for " ++ type
  | noSuchRow type id => type ++ " " ++ id.render ++ " does not exist"

namespace Store

/-- The store without rows. -/
def empty (schema : Schema) : Store := ⟨schema, [], 1⟩

/-! ## Looking up -/

/-- The rows of one entity type. -/
def rowsOf (s : Store) (type : String) : List Row := s.rows.filter (·.type == type)

/-- The row of an entity type with an identifier. -/
def find? (s : Store) (type : String) (id : Value) : Option Row :=
  (s.rowsOf type).find? (·.id == id)

/-- The rows of an entity type that were inserted under an identifier. -/
def childrenOf (s : Store) (type : String) (parentId : Value) : List Row :=
  (s.rowsOf type).filter (·.parentId == some parentId)

/-! ## Identifiers -/

/-- The values other than `v`. -/
def without (v : Value) (vs : List Value) : List Value := vs.filter (· ≠ v)

theorem length_without_lt {v : Value} {vs : List Value} (h : v ∈ vs) : (without v vs).length < vs.length :=
  List.length_filter_lt_length_iff_exists.2 ⟨v, h, by simp⟩

/-- The first of the numbers from `next` on that is not among the values taken. -/
def firstFree (taken : List Value) (next : Int64) : Int64 :=
  if .int next ∈ taken then firstFree (without (.int next) taken) (next + 1) else next
termination_by taken.length
decreasing_by exact length_without_lt ‹_›

/-- Makes up an identifier for an entity type and moves the counter past it. -/
def allocate (type : String) : StateM Store Value := fun s =>
  let id := firstFree ((s.rowsOf type).map (·.id)) s.nextId
  (.int id, { s with nextId := id + 1 })

/-! ## Carrying out actions -/

/-- A computation on a store that may fail. -/
abbrev Step := ExceptT StoreError (StateM Store)

/-- The value an action writes. -/
def valueOf (w : Workspace) (a : Action) : Except StoreError Value :=
  match a.value? w with
  | .error e => .error (.resolution e)
  | .ok none => .error (.noValue a.kind)
  | .ok (some v) => .ok v

/-- The identifier property of an action's entity type. -/
def idPropertyOf (schema : Schema) (a : Action) : Except StoreError String := do
  let e ← (schema.entity a.type).mapError .mapping
  e.requiredId.mapError .mapping

/-- The identifier that was made up for an action's entity, or that it has. -/
def identity (schema : Schema) (w : Workspace) (a : Action) : Except StoreError Value :=
  match a.generatedId with
  | some id => .ok id
  | none => do
    let v ← valueOf w a
    let property ← idPropertyOf schema a
    (schema.read v property).mapError .mapping

/-- The identifier of the root that the last root action stored. -/
def rootIdentity (schema : Schema) (w : Workspace) (executed : List Action) : Except StoreError Value :=
  match executed.reverse.find? (·.isRoot) with
  | some root => identity schema w root
  | none => .error .noRoot

/-- What is to be stored for an inserted entity. -/
structure Prepared where
  value : Value
  id : Value
  /-- The identifier, if it was made up here. -/
  generated : Option Value

/-- The value to store for an action, with its identifier filled in. -/
def prepare (w : Workspace) (a : Action) : Step Prepared := do
  let schema := (← get).schema
  let v ← valueOf w a
  let property ← idPropertyOf schema a
  let id ← (schema.read v property).mapError StoreError.mapping
  if id.isNull then
    let id ← allocate a.type
    let v ← (schema.write v property id).mapError StoreError.mapping
    return ⟨v, id, some id⟩
  else if ((← get).find? a.type id).isSome then throw (.duplicateKey id a.type)
  else return ⟨v, id, none⟩

/-- Appends a row. -/
def append (r : Row) : Step Unit :=
  modify fun s => { s with rows := s.rows ++ [r] }

/-- Inserts the row of a root. -/
def insertRoot (w : Workspace) (a : Action) : Step (Option Value) := do
  let p ← prepare w a
  append ⟨a.type, p.id, p.id, .root, none, [], p.value⟩
  return p.generated

/-- The rows with `update` applied to the first one that `chosen` holds of. -/
def updateFirst (chosen : Row → Bool) (update : Row → Row) : List Row → List Row
  | [] => []
  | r :: rest => if chosen r then update r :: rest else r :: updateFirst chosen update rest

/-- Updates the row of a root. -/
def updateRoot (w : Workspace) (a : Action) : Step (Option Value) := do
  let s ← get
  let id ← identity s.schema w a
  let v ← valueOf w a
  let isThis (r : Row) : Bool := r.type == a.type && r.isRoot && r.id == id
  if s.rows.any isThis then
    set { s with rows := updateFirst isThis (fun r => { r with value := v }) s.rows }
    return none
  else throw (.noSuchRow a.type id)

/-- Inserts the row of an entity below a root. -/
def insert (w : Workspace) (a : Action) (executed : List Action) : Step (Option Value) := do
  let schema := (← get).schema
  match a.dependency executed with
  | none => throw (.noDependency a.type)
  | some dependency => do
    let parentId ← identity schema w dependency
    let rootId ← rootIdentity schema w executed
    let p ← prepare w a
    let path := (a.address?.map (·.path)).getD .root
    append ⟨a.type, p.id, rootId, path, some parentId, a.columns?.getD [], p.value⟩
    return p.generated

/-- Deletes the rows of an entity type at one path below a root. -/
def delete (type : String) (rootId : Value) (path : Path) : Step (Option Value) := do
  modify fun s => { s with rows := s.rows.filter fun r => !(r.type == type && r.rootId == rootId && r.path == path) }
  return none

/-- Carries out an action; answers the identifier made up for its entity. -/
def run (w : Workspace) (a : Action) (executed : List Action) : Step (Option Value) :=
  match a with
  | .insertRoot .. => insertRoot w a
  | .updateRoot .. => updateRoot w a
  | .insert .. => insert w a executed
  | .delete type rootId path => delete type rootId path

/-- The property write by which an identifier made up here entered the stored value. -/
def keyWrites (schema : Schema) (w : Workspace) (a : Action) (generated : Option Value) : List Write :=
  match generated, valueOf w a, idPropertyOf schema a with
  | some id, .ok v, .ok property => schema.writes v property id
  | _, _, _ => []

/-- The store as an executor. -/
def executor : Executor Store := fun w a executed s =>
  match run w a executed s with
  | (.ok generated, s) => ⟨.ok generated, keyWrites s.schema w a generated, s⟩
  | (.error e, s) => ⟨.error e.message, [], s⟩

end Store

end Aggregate
