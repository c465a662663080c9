/-!
# Digits

Digits of a base up to sixteen, and the numbers that rows of them stand for.
-/

namespace Aggregate.Digits

/-- The value of a digit, if the base has it. -/
def value? (base : Nat) (c : Char) : Option Nat :=
  let n :=
    if '0' ≤ c && c ≤ '9' then c.toNat - '0'.toNat
    else if 'a' ≤ c && c ≤ 'f' then c.toNat - 'a'.toNat + 10
    else if 'A' ≤ c && c ≤ 'F' then c.toNat - 'A'.toNat + 10
    else base
  if n < base then some n else none

/-- Whether a character is a digit of the base. -/
def isDigit (base : Nat) (c : Char) : Bool := (value? base c).isSome

/-- The number that a row of digits stands for. -/
def number (base : Nat) (ds : List Char) : Nat :=
  ds.foldl (fun n c => base * n + (value? base c).getD 0) 0

/-- The number that a row of digits stands for, if the row holds nothing else and is not empty. -/
def number? (base : Nat) (ds : List Char) : Option Nat :=
  if ds.isEmpty || !ds.all (isDigit base) then none else some (number base ds)

end Aggregate.Digits
