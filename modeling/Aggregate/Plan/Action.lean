import Aggregate.Address.Basic

/-!
# Actions

The steps that store an aggregate: inserting or updating its root, inserting an entity below it, and deleting the rows
at one path.

- `Action`, with the parts that the kinds have in common;
- `Action.dependency`: the action that stored the entity which holds this one, among the actions run before.
-/

namespace Aggregate

/-- The kinds of action. -/
inductive ActionKind where
  | insertRoot
  | updateRoot
  | insert
  | delete
  deriving DecidableEq, Repr

namespace ActionKind

/-- The name of a kind in messages. -/
def label : ActionKind → String
  | insertRoot => "InsertRoot"
  | updateRoot => "UpdateRoot"
  | insert => "Insert"
  | delete => "Delete"

/-- Whether a store may make up the identifier for an action of this kind. -/
def generatesId : ActionKind → Bool
  | insertRoot | insert => true
  | updateRoot | delete => false

end ActionKind

/-- One step of storing an aggregate. -/
inductive Action where
  /-- Insert the root. -/
  | insertRoot (type : String) (address : Address) (generatedId : Option Value)
  /-- Update the row of the root. -/
  | updateRoot (type : String) (address : Address)
  /-- Insert an entity below the root. The action at `dependsOn` stores the entity that holds it; `columns` has its
  index or map key. -/
  | insert (type : String) (address : Address) (dependsOn : Option Nat) (columns : Fields)
      (generatedId : Option Value)
  /-- Delete the rows at a path below a root, or the row of the root itself. -/
  | delete (type : String) (rootId : Value) (path : Path)
  deriving DecidableEq

namespace Action

/-- The kind of an action. -/
def kind : Action → ActionKind
  | insertRoot .. => .insertRoot
  | updateRoot .. => .updateRoot
  | insert .. => .insert
  | delete .. => .delete

/-- The entity type an action is about. -/
def type : Action → String
  | insertRoot type _ _ => type
  | updateRoot type _ => type
  | insert type _ _ _ _ => type
  | delete type _ _ => type

/-- The address of the entity an action stores. -/
def address? : Action → Option Address
  | insertRoot _ address _ => some address
  | updateRoot _ address => some address
  | insert _ address _ _ _ => some address
  | delete .. => none

/-- The position of the action that stores the holder of this one's entity. -/
def dependsOn : Action → Option Nat
  | insert _ _ dependsOn _ _ => dependsOn
  | _ => none

/-- The index or map key columns of an insert. -/
def columns? : Action → Option Fields
  | insert _ _ _ columns _ => some columns
  | _ => none

/-- The identifier made up for the action's entity. -/
def generatedId : Action → Option Value
  | insertRoot _ _ id => id
  | insert _ _ _ _ id => id
  | _ => none

/-- Whether the action stores the root of an aggregate. -/
def isRoot : Action → Bool
  | insertRoot .. | updateRoot .. => true
  | _ => false

/-- The action that stored the holder of this one's entity. -/
def dependency (a : Action) (executed : List Action) : Option Action :=
  a.dependsOn.bind (executed[·]?)

/-- An insert with one more column; other actions have no columns. -/
def putColumn (column : String) (value : Value) : Action → Action
  | insert type address dependsOn columns id => insert type address dependsOn (columns.set column value) id
  | a => a

/-- The action with the identifier made up for its entity; only inserts keep one. -/
def withGeneratedId (id : Value) : Action → Action
  | insertRoot type address _ => insertRoot type address (some id)
  | insert type address dependsOn columns _ => insert type address dependsOn columns (some id)
  | a => a

end Action

end Aggregate
