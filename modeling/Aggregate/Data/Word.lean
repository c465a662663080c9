/-!
# Numbers of 64 bits

Which numbers 64 bits can hold, with and without a sign.
-/

namespace Aggregate.Word

/-- How many numbers 64 bits can hold. -/
def count : Nat := Nat.pow 2 64

/-- How many of them are negative, if one bit is a sign. -/
def half : Nat := Nat.pow 2 63

/-- Whether 64 bits can hold a natural number. -/
def holds (n : Nat) : Bool := n < count

/-- Whether 64 bits, one of them a sign, can hold an integer. -/
def holdsSigned (n : Int) : Bool := -half ≤ n && n < half

end Aggregate.Word
