import Aggregate.Value.Set
import Aggregate.Keyed

/-!
# Strategies

A strategy tells how a value sits in the container next to it.

- `Strategy.extract` takes the value out of the container;
- `Strategy.rebuild` gives the container with another value in its place; sets come back in order of insertion, so
  that positions stay valid;
- `Strategy.qualifier`: the index or map key that is stored with the value.
-/

namespace Aggregate

/-- How a value sits in its container. -/
inductive Strategy where
  /-- The container is the value. -/
  | direct
  /-- The value of a map under a key. -/
  | mapKey (key : Value)
  /-- The item of a list at an index. -/
  | listIndex (index : Nat)
  /-- The element of a set at a position. -/
  | setPosition (position : Nat)
  /-- A value that is known beforehand, whatever the container. -/
  | known (value : Value)
  deriving DecidableEq

/-- What a strategy asks of a container. -/
inductive Container where
  | value
  | map
  | list
  | set
  deriving DecidableEq, Repr

/-- The name of a container in messages. -/
def Container.label : Container → String
  | value => "value"
  | map => "map"
  | list => "list"
  | set => "set"

/-- Why a strategy finds no value. -/
inductive StrategyError where
  /-- The container is of another kind, or there is none. -/
  | shape (expected : Container) (found : Option Value.Kind)
  /-- The container has nothing at the strategy's place. -/
  | missing (place : Strategy)
  deriving DecidableEq

namespace Strategy

/-- The text of a strategy. -/
def render : Strategy → String
  | direct => "direct"
  | mapKey key => "key " ++ key.render
  | listIndex index => "index " ++ index.repr
  | setPosition position => "position " ++ position.repr
  | known _ => "known value"

/-- The container a strategy asks for. -/
def container : Strategy → Container
  | direct | known _ => .value
  | mapKey _ => .map
  | listIndex _ => .list
  | setPosition _ => .set

/-- The index or map key stored with the value. -/
def qualifier : Strategy → Option Value
  | mapKey key => some key
  | listIndex index => some (.ofPosition index)
  | direct | setPosition _ | known _ => none

/-- The value at an optional place. -/
def found (s : Strategy) : Option Value → Except StrategyError Value
  | some v => .ok v
  | none => .error (.missing s)

/-- The value a strategy takes out of a container. -/
def extract (s : Strategy) (container : Option Value) : Except StrategyError Value :=
  match s, container with
  | known v, _ => .ok v
  | s, none => .error (.shape s.container none)
  | direct, some v => .ok v
  | mapKey key, some (.map entries) => found (mapKey key) (entries.lookup key)
  | listIndex index, some (.list items) => found (listIndex index) items[index]?
  | setPosition position, some (.set _ elements) => found (setPosition position) elements[position]?
  | s, some v => .error (.shape s.container (some v.kind))

/-- The container with `element` in the strategy's place. A map takes a new key, a list or a set no new place. -/
def rebuild (s : Strategy) (container element : Value) : Except StrategyError Value :=
  match s, container with
  | direct, _ => .ok element
  | known _, _ => .ok element
  | mapKey key, .map entries => .ok (.map (Keyed.insert key element entries))
  | listIndex index, .list items =>
    if index < items.length then .ok (.list (items.set index element)) else .error (.missing (listIndex index))
  | setPosition position, .set _ elements =>
    if position < elements.length then .ok (ValueSet.ofList .linked (elements.set position element)).toValue
    else .error (.missing (setPosition position))
  | s, v => .error (.shape s.container (some v.kind))

end Strategy

/-- What was found in place of the container, for messages. -/
def StrategyError.foundLabel (found : Option Value.Kind) : String :=
  match found with
  | none => "no container"
  | some kind => kind.label

end Aggregate
