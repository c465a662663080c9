/-!
# Paths

A path names a place below the root of an aggregate by the properties that lead to it. Its text joins the names with
dots; the path of the root has no names.

- `Path.dotted` and `Path.ofDotted` write and read that text;
- `Path.render` is the text shown in messages.
-/

namespace Aggregate

/-- The property names from the root of an aggregate to a place below it. -/
structure Path where
  segments : List String
  deriving DecidableEq, Repr, Ord

namespace Path

/-- The path of the root itself. -/
def root : Path := ⟨[]⟩

/-- The path one property further down. -/
def child (p : Path) (property : String) : Path := ⟨p.segments ++ [property]⟩

/-- Whether the path is that of the root. -/
def isRoot (p : Path) : Bool := p.segments.isEmpty

/-- How many properties the path names. -/
def length (p : Path) : Nat := p.segments.length

/-- The last property named. -/
def leaf? (p : Path) : Option String := p.segments.getLast?

/-- The names joined with dots. -/
def dotted (p : Path) : String := ".".intercalate p.segments

/-- Cuts a text at its dots. -/
def cut : List Char → List (List Char)
  | [] => [[]]
  | '.' :: rest => [] :: cut rest
  | c :: rest =>
    match cut rest with
    | [] => [[c]]
    | word :: words => (c :: word) :: words

/-- The path that a text with dots names; empty names are left out. -/
def ofDotted (text : String) : Path :=
  ⟨((cut text.toList).filter (!·.isEmpty)).map String.ofList⟩

/-- The path as messages show it. -/
def render (p : Path) : String :=
  if p.isRoot then "<root>" else p.dotted

@[simp] theorem length_child (p : Path) (property : String) : (p.child property).length = p.length + 1 := by
  simp [length, child]

end Path

end Aggregate
