import Aggregate.Address.Basic

/-!
# Declared paths

The paths below an entity type along its declared references, each with the entity type declared there, a path before
the paths that extend it. Types that hold themselves have no such list.

- `Schema.declared`: the declared paths below a type, none longer than a limit.
-/

namespace Aggregate

/-- A path along declared references, and the type of the entities there. -/
structure DeclaredPath where
  path : Path
  target : String
  deriving DecidableEq, Repr

namespace Schema

/-- The declared paths through some references of the type at `base`, given the declared paths below a type further
down. `lineage` holds the types from the root to `base`. -/
def declaredThrough (below : String → Path → List String → Except ResolutionError (List DeclaredPath)) (base : Path)
    (lineage : List String) : List Reference → Except ResolutionError (List DeclaredPath)
  | [] => return []
  | reference :: rest => do
    let path := base.child reference.property.name
    if reference.target ∈ lineage then throw (.cyclicMapping path reference.target)
    let inner ← below reference.target path (reference.target :: lineage)
    let further ← declaredThrough below base lineage rest
    return ⟨path, reference.target⟩ :: inner ++ further

/-- The declared paths below the type at `base`, with `room` for so many more names on a path. -/
def declaredBelow (s : Schema) (limit : Nat) :
    (room : Nat) → String → Path → List String → Except ResolutionError (List DeclaredPath)
  | 0, type, base, _ => do
    let e ← (s.entity type).mapError .mapping
    match e.references with
    | [] => return []
    | reference :: _ => throw (.depthExceeded (base.child reference.property.name) limit)
  | room + 1, type, base, lineage => do
    let e ← (s.entity type).mapError .mapping
    declaredThrough (s.declaredBelow limit room) base lineage e.references

/-- The declared paths below a type, each of at most `limit` names. -/
def declared (s : Schema) (limit : Nat) (type : String) : Except ResolutionError (List DeclaredPath) :=
  s.declaredBelow limit limit type .root [type]

end Schema

end Aggregate
