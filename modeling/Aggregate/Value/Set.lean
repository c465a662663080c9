import Aggregate.Value.Order

/-!
# Sets of values

A set keeps its elements in a list, without repetition: a sorted set in ascending order, the others in order of first
insertion.
-/

namespace Aggregate

/-- An ordering with the elements kept under it. -/
structure ValueSet where
  ordering : SetOrdering
  elements : List Value
  deriving DecidableEq

namespace ValueSet

/-- The set without elements. -/
def empty (ordering : SetOrdering) : ValueSet := ⟨ordering, []⟩

/-- Puts `v` before the first value that is not smaller. -/
def place (v : Value) : List Value → List Value
  | [] => [v]
  | w :: rest => if compare w v = .lt then w :: place v rest else v :: w :: rest

/-- Whether a value would be new to the set. -/
def admits (s : ValueSet) (v : Value) : Bool :=
  decide (v ∉ s.elements)

/-- The set with `v` in it; a value that is present stays where it is. -/
def insert (s : ValueSet) (v : Value) : ValueSet :=
  if s.admits v then
    match s.ordering with
    | .sorted => { s with elements := place v s.elements }
    | .hashed | .linked => { s with elements := s.elements ++ [v] }
  else s

/-- The set of some values, inserted one after another. -/
def ofList (ordering : SetOrdering) (vs : List Value) : ValueSet :=
  vs.foldl insert (empty ordering)

/-- The element at a position. -/
def get? (s : ValueSet) (position : Nat) : Option Value :=
  s.elements[position]?

/-- The same elements in the same order, as a set in order of insertion. -/
def toLinked (s : ValueSet) : ValueSet := { s with ordering := .linked }

/-- The set as a value. -/
def toValue (s : ValueSet) : Value := .set s.ordering s.elements

end ValueSet

end Aggregate
