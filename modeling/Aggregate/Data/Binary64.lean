import Aggregate.Data.Digits
import Aggregate.Data.Word

/-!
# Binary floating-point numbers

Floating-point numbers of 64 bits, as an integer times a power of two.

- `Binary64.ofDecimal`: the number nearest to a decimal, of two equally near ones that with an even mantissa;
- `Binary64.render`: the shortest decimal that is nearest to no other number, of several the one nearest to the
  number, of two equally near ones the greater, written without an exponent;
- `Binary64.roundToCount`: the nearest natural number of 64 bits, a half rounded up.
-/

namespace Aggregate

/-- A floating-point number. The finite ones are `mantissa * 2 ^ exponent`, with a mantissa below `2 ^ 53`, and not
below `2 ^ 52` unless the exponent is the least one. -/
inductive Binary64 where
  | nan
  | infinite (negative : Bool)
  | finite (negative : Bool) (mantissa : Nat) (exponent : Int)
  deriving DecidableEq, Repr

namespace Binary64

/-- The least exponent. -/
def leastExponent : Int := -1074

/-- The greatest exponent. -/
def greatestExponent : Int := 971

/-- Mantissas are below this. -/
def mantissaLimit : Nat := Nat.pow 2 53

/-- The number `numerator / denominator * base ^ -exponent` as a fraction. -/
def scaled (base numerator denominator : Nat) (exponent : Int) : Nat × Nat :=
  if exponent < 0 then (numerator * Nat.pow base (-exponent).toNat, denominator)
  else (numerator, denominator * Nat.pow base exponent.toNat)

/-- The natural number nearest to a fraction, the even one of two equally near ones. -/
def roundToEven (numerator denominator : Nat) : Nat :=
  let q := numerator / denominator
  let r := numerator % denominator
  if 2 * r < denominator then q
  else if 2 * r > denominator then q + 1
  else if q % 2 = 0 then q else q + 1

/-- The exponent with which a positive fraction has a mantissa of 53 bits, if that is not below the least one. -/
def exponentOf (numerator denominator : Nat) : Int :=
  let guess : Int := (numerator.log2 : Int) - denominator.log2 - 52
  let (n, d) := scaled 2 numerator denominator guess
  max leastExponent (if 2 * n < d * mantissaLimit then guess - 1 else guess)

/-- The number nearest to a positive fraction. -/
def ofFraction (negative : Bool) (numerator denominator : Nat) : Binary64 :=
  let exponent := exponentOf numerator denominator
  let (n, d) := scaled 2 numerator denominator exponent
  let m := roundToEven n d
  let (m, exponent) := if m = mantissaLimit then (m / 2, exponent + 1) else (m, exponent)
  if exponent > greatestExponent then .infinite negative else .finite negative m exponent

/-- The number nearest to `digits * 10 ^ exponent`. -/
def ofDecimal (negative : Bool) (digits : Nat) (exponent : Int) : Binary64 :=
  let size : Int := (Nat.toDigits 10 digits).length + exponent
  if digits = 0 || size < -330 then .finite negative 0 leastExponent
  else if size > 310 then .infinite negative
  else
    let (n, d) := scaled 10 digits 1 (-exponent)
    ofFraction negative n d

/-! ## Text -/

/-- A number of decimal digits before the point that a positive fraction does not exceed; for a fraction below
`1 / 10`, minus a number of zeros that it has behind the point. -/
def decimalSize (numerator denominator : Nat) : Int :=
  if numerator ≥ denominator then (Nat.toDigits 10 (numerator / denominator)).length
  else 2 - ((Nat.toDigits 10 (denominator / numerator)).length : Int)

/-- The decimals `digits * 10 ^ exponent` of a fixed grid on either side of a fraction. -/
def neighbours (numerator denominator : Nat) (exponent : Int) : Nat × Nat :=
  let (n, d) := scaled 10 numerator denominator exponent
  (n / d, n / d + 1)

/-- The distance between a decimal and a fraction, as a fraction of the latter's denominator and a power of ten. -/
def distance (numerator denominator digits : Nat) (exponent : Int) : Nat :=
  let (n, d) := scaled 10 numerator denominator exponent
  if n ≤ digits * d then digits * d - n else n - digits * d

/-- The first grid, from `count` digits on, with a decimal that is nearest to the number, and that decimal. -/
def shortestFrom (x : Binary64) (numerator denominator : Nat) (size : Int) : (rounds count : Nat) → Nat × Int
  | 0, count => ((neighbours numerator denominator (size - count)).1, size - count)
  | rounds + 1, count =>
    let exponent := size - count
    let (low, high) := neighbours numerator denominator exponent
    let lowFits := ofDecimal false low exponent = x
    let highFits := ofDecimal false high exponent = x
    let lowNearer := distance numerator denominator low exponent < distance numerator denominator high exponent
    if lowFits && (lowNearer || !highFits) then (low, exponent)
    else if highFits then (high, exponent)
    else shortestFrom x numerator denominator size rounds (count + 1)

/-- The digits and the decimal exponent of the shortest decimal for a positive number. -/
def shortest (mantissa : Nat) (exponent : Int) : Nat × Int :=
  let (n, d) := scaled 2 mantissa 1 (-exponent)
  shortestFrom (.finite false mantissa exponent) n d (decimalSize n d) 18 1

/-- Decimal digits with a power of ten, written without an exponent. -/
def positional (ds : List Char) (exponent : Int) : String :=
  if exponent ≥ 0 then String.ofList (ds ++ List.replicate exponent.toNat '0')
  else
    let places := (-exponent).toNat
    let padded := List.replicate (places + 1 - ds.length) '0' ++ ds
    String.ofList (padded.take (padded.length - places) ++ '.' :: padded.drop (padded.length - places))

/-- Decimal digits without the zeros at their end, and the power of ten that makes up for them. -/
def withoutZeros (ds : List Char) (exponent : Int) : List Char × Int :=
  let zeros := (ds.reverse.takeWhile (· == '0')).length
  (ds.take (ds.length - zeros), exponent + zeros)

/-- The text of a number. -/
def render : Binary64 → String
  | nan => "NaN"
  | infinite negative => if negative then "-inf" else "inf"
  | finite negative mantissa exponent =>
    let text :=
      if mantissa = 0 then "0"
      else
        let (digits, exponent) := shortest mantissa exponent
        let (ds, exponent) := withoutZeros (Nat.toDigits 10 digits) exponent
        positional ds exponent
    if negative then "-" ++ text else text

/-! ## Conversions -/

/-- The nearest natural number of 64 bits, a half rounded up. What is no number counts as zero. -/
def roundToCount : Binary64 → Nat
  | nan | infinite true | finite true _ _ => 0
  | infinite false => Word.count - 1
  | finite false mantissa exponent =>
    let (n, d) := scaled 2 mantissa 1 (-exponent)
    min (Word.count - 1) ((2 * n + d) / (2 * d))

/-- Whether the number is zero. -/
def isZero : Binary64 → Bool
  | finite _ mantissa _ => mantissa == 0
  | _ => false

/-! ## Reading -/

/-- A sign in front of a text. -/
def takeSign : List Char → Bool × List Char
  | '-' :: rest => (true, rest)
  | '+' :: rest => (false, rest)
  | cs => (false, cs)

/-- The exponent part of a decimal, `0` if there is none. -/
def exponent? : List Char → Option Int
  | [] => some 0
  | c :: rest =>
    let (negative, ds) := takeSign rest
    if c == 'e' || c == 'E' then (Digits.number? 10 ds).map fun n => if negative then -(n : Int) else n
    else none

/-- The digits behind a point. -/
def takePlaces : List Char → List Char × List Char
  | '.' :: rest => (rest.takeWhile Char.isDigit, rest.dropWhile Char.isDigit)
  | cs => ([], cs)

/-- A decimal without a sign: digits with a point among, before or behind them, and an exponent. -/
def unsigned? (negative : Bool) (cs : List Char) : Option Binary64 := do
  let whole := cs.takeWhile Char.isDigit
  let (places, rest) := takePlaces (cs.dropWhile Char.isDigit)
  if whole.isEmpty && places.isEmpty then none
  let exponent ← exponent? rest
  return ofDecimal negative (Digits.number 10 (whole ++ places)) (exponent - places.length)

/-- Reads a decimal, `inf`, `infinity` or `nan`, the words in any case. -/
def ofText? (text : String) : Option Binary64 :=
  let (negative, cs) := takeSign text.toList
  match String.ofList (cs.map (·.toLower)) with
  | "nan" => some .nan
  | "inf" | "infinity" => some (.infinite negative)
  | _ => unsigned? negative cs

end Binary64

end Aggregate
