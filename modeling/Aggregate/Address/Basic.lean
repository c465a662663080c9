import Aggregate.Address.Strategy
import Aggregate.Path
import Aggregate.Schema.Bean

/-!
# Addresses

An address names a value inside an aggregate: the root, or what a strategy takes out of a property of the value at
another address.

- `Address.current` reads the value at an address, given the value of the root;
- `Address.assign` gives the root with another value at an address, every container on the way rebuilt;
- `Address.assignWrites`: the property writes which that takes, also those of an attempt that fails.
-/

namespace Aggregate

/-- The property that leads from a value to the values it holds. -/
structure Relation where
  /-- The entity type that declares the property. -/
  owner : String
  property : Property
  /-- The path from the root, ending in the property. -/
  path : Path
  deriving DecidableEq

/-- A place inside an aggregate. Aggregates are told apart by the number of their root. -/
inductive Address where
  | root (origin : Nat)
  | child (parent : Address) (relation : Relation) (strategy : Strategy)
  deriving DecidableEq

/-- Why an address cannot be followed, or an aggregate not be walked. -/
inductive ResolutionError where
  /-- The value of a collection is not of the declared kind. -/
  | unsupportedContainer (path : Path) (found : Value.Kind) (node : Address)
  /-- The strategy of an address finds no value. -/
  | unresolved (node : Address) (cause : StrategyError)
  /-- A property cannot be read or set. -/
  | property (path : Path) (node : Address) (cause : MappingError)
  /-- An entity or a declared path lies too deep. -/
  | depthExceeded (path : Path) (limit : Nat)
  /-- A type is declared to hold itself. -/
  | cyclicMapping (path : Path) (type : String)
  | mapping (cause : MappingError)
  deriving DecidableEq

namespace Address

/-- The number of the root below which the address lies. -/
def origin : Address → Nat
  | root n => n
  | child parent _ _ => parent.origin

/-- Whether the address is that of a root. -/
def isRoot : Address → Bool
  | root _ => true
  | child .. => false

/-- The path from the root. -/
def path : Address → Path
  | root _ => .root
  | child _ relation _ => relation.path

/-- How many relations lie between the root and the address. -/
def depth : Address → Nat
  | root _ => 0
  | child parent _ _ => parent.depth + 1

/-- The relation that leads to the address. -/
def relation? : Address → Option Relation
  | root _ => none
  | child _ relation _ => some relation

/-- The address one relation up. -/
def parent? : Address → Option Address
  | root _ => none
  | child parent _ _ => some parent

/-- The index or map key stored with the value. -/
def qualifier : Address → Option Value
  | root _ => none
  | child _ _ strategy => strategy.qualifier

/-- The text of an address. -/
def render : Address → String
  | root _ => "<root>"
  | child _ relation strategy => relation.path.render ++ " (" ++ strategy.render ++ ")"

/-! ## Reading -/

/-- The value of the relation's property on the value that holds it, read on behalf of `node`. -/
def readRelation (schema : Schema) (node : Address) (holder : Value) (relation : Relation) :
    Except ResolutionError Value :=
  (schema.read holder relation.property.name).mapError (.property relation.path node)

/-- The value at an address of the aggregate with this root. -/
def current (schema : Schema) (rootValue : Value) : Address → Except ResolutionError Value
  | root _ => .ok rootValue
  | child _ _ (.known v) => .ok v
  | child parent relation strategy => do
    let node := child parent relation strategy
    let holder ← parent.current schema rootValue
    let container ← node.readRelation schema holder relation
    (strategy.extract (some container)).mapError (.unresolved node)

/-! ## Assigning -/

/-- The value that holds the address `child parent relation strategy`, and its property's value rebuilt around `x`. -/
def rebuilt (schema : Schema) (rootValue : Value) (parent : Address) (relation : Relation) (strategy : Strategy)
    (x : Value) : Except ResolutionError (Value × Value) := do
  let node := child parent relation strategy
  let holder ← parent.current schema rootValue
  let container ← node.readRelation schema holder relation
  let inner ← (strategy.rebuild container x).mapError (.unresolved node)
  return (holder, inner)

/-- The holder with its property set to the rebuilt value. -/
def written (schema : Schema) (parent : Address) (relation : Relation) (strategy : Strategy) (holder inner : Value) :
    Except ResolutionError Value :=
  (schema.write holder relation.property.name inner).mapError
    (.property relation.path (child parent relation strategy))

/-- The root of the aggregate after `x` was put at an address. -/
def assign (schema : Schema) (rootValue : Value) : Address → Value → Except ResolutionError Value
  | root _, x => .ok x
  | child parent relation strategy, x => do
    let (holder, inner) ← rebuilt schema rootValue parent relation strategy x
    let holder ← written schema parent relation strategy holder inner
    parent.assign schema rootValue holder

/-- The property writes of putting `x` at an address, up to the first one that fails. -/
def assignWrites (schema : Schema) (rootValue : Value) : Address → Value → List Write
  | root _, _ => []
  | child parent relation strategy, x =>
    match rebuilt schema rootValue parent relation strategy x with
    | .error _ => []
    | .ok (holder, inner) =>
      schema.writes holder relation.property.name inner ++
        match written schema parent relation strategy holder inner with
        | .error _ => []
        | .ok holder => parent.assignWrites schema rootValue holder

end Address

namespace ResolutionError

/-- The text of a resolution error. -/
def message : ResolutionError → String
  | unsupportedContainer path found node =>
    "Failed to access property " ++ path.dotted ++ ": unsupported container " ++ found.label ++ " at " ++ node.render
  | unresolved node (.missing place) =>
    "Failed to access property " ++ node.path.render ++ ": no element at " ++ place.render ++ " in " ++ node.render
  | unresolved node (.shape expected found) =>
    "Failed to access property " ++ node.path.render ++ ": expected " ++ expected.label ++ " but found " ++
      StrategyError.foundLabel found ++ " at " ++ node.render
  | property path node cause =>
    "Failed to access property " ++ path.dotted ++ " at " ++ node.render ++ ": " ++ cause.message
  | depthExceeded path limit =>
    "Aggregate nesting exceeds maximum depth " ++ limit.repr ++ " at " ++ path.dotted
  | cyclicMapping path type => "Cyclic entity mapping through " ++ path.dotted ++ " (type " ++ type ++ ")"
  | mapping cause => cause.message

end ResolutionError

end Aggregate
