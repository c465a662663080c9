import Aggregate.Data.Basic

/-!
# TOML numbers

- `number?`: an integer of 64 bits in base ten, two, eight or sixteen, or a floating-point number.
-/

namespace Aggregate.Toml

/-- Digits behind a digit, with single underscores between them, which are left out. -/
def moreDigits? (base : Nat) : List Char → Option (List Char × List Char)
  | [] => some ([], [])
  | '_' :: c :: rest =>
    if Digits.isDigit base c then (moreDigits? base rest).map fun (ds, rest) => (c :: ds, rest) else none
  | c :: rest =>
    if Digits.isDigit base c then (moreDigits? base rest).map fun (ds, rest) => (c :: ds, rest)
    else if c == '_' then none
    else some ([], c :: rest)

/-- A row of digits, which may not be empty. -/
def digits? (base : Nat) : List Char → Option (List Char × List Char)
  | c :: rest => if Digits.isDigit base c then moreDigits? base (c :: rest) else none
  | [] => none

/-- A row of decimal digits that begins with a zero only if it is one. -/
def wholeDigits? : List Char → Option (List Char × List Char)
  | '0' :: rest => some (['0'], rest)
  | cs => digits? 10 cs

/-- An integer, if it fits into 64 bits. -/
def integer? (negative : Bool) (n : Nat) : Option Data :=
  let n : Int := if negative then -n else n
  if Word.holdsSigned n then some (.int n) else none

/-- The digits behind a point, if there is one. -/
def places? : List Char → Option (List Char × List Char)
  | '.' :: rest => digits? 10 rest
  | cs => some ([], cs)

/-- An exponent, if there is one. -/
def exponent? : List Char → Option (Option Int × List Char)
  | c :: rest =>
    if c == 'e' || c == 'E' then do
      let (negative, rest) := Binary64.takeSign rest
      let (ds, rest) ← digits? 10 rest
      let n : Int := Digits.number 10 ds
      return (some (if negative then -n else n), rest)
    else some (none, c :: rest)
  | [] => some (none, [])

/-- A decimal; one with a point or an exponent may not be too great for a floating-point number. -/
def decimal? (negative : Bool) (cs : List Char) : Option (Data × List Char) := do
  let (whole, rest) ← wholeDigits? cs
  let (places, rest) ← places? rest
  let (exponent, rest) ← exponent? rest
  if places.isEmpty && exponent.isNone then return (← integer? negative (Digits.number 10 whole), rest)
  let x := Binary64.ofDecimal negative (Digits.number 10 (whole ++ places)) (exponent.getD 0 - places.length)
  if x = .infinite false then none
  return (.real x, rest)

/-- An integer in another base than ten. -/
def based? (base : Nat) (cs : List Char) : Option (Data × List Char) := do
  let (ds, rest) ← digits? base cs
  return (← integer? false (Digits.number base ds), rest)

/-- A number. -/
def number? (cs : List Char) : Option (Data × List Char) :=
  match cs with
  | '0' :: 'x' :: rest => based? 16 rest
  | '0' :: 'o' :: rest => based? 8 rest
  | '0' :: 'b' :: rest => based? 2 rest
  | cs =>
    let (negative, cs) := Binary64.takeSign cs
    match cs with
    | 'i' :: 'n' :: 'f' :: rest => some (.real (.infinite negative), rest)
    | 'n' :: 'a' :: 'n' :: rest => some (.real .nan, rest)
    | cs => decimal? negative cs

end Aggregate.Toml
