/-!
# Runs of code points

Sets of characters as pairs of a first and a last code point.
-/

namespace Aggregate.Unicode

/-- Whether a character lies in one of several runs. -/
def inRuns (runs : List (Nat × Nat)) (c : Char) : Bool :=
  runs.any fun run => run.1 ≤ c.toNat && c.toNat ≤ run.2

end Aggregate.Unicode
