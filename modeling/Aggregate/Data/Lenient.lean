import Aggregate.Data.Reading
import Aggregate.Unicode.Lower

/-!
# Lenient reading

Reading settings, where a scalar of one kind may stand for one of another kind, and words count in any case.

- `Reading.lenient`: numbers and truth values count as their texts, words such as `on` and `no` as truth values, and
  truth values and rounded numbers as counts.
-/

namespace Aggregate.Reading

/-- The truth value that a word in lower case stands for. -/
def wordFlag? (word : String) : Option Bool :=
  if word ∈ ["true", "on", "yes"] then some true
  else if word ∈ ["false", "off", "no"] then some false
  else none

/-- A scalar as a text. -/
def anyText : Data → Option String
  | .text s | .other s => some s
  | .int n => some (toString n)
  | .bool b => some (if b then "true" else "false")
  | .real x => some x.render
  | _ => none

/-- The truth value of a text. -/
def textFlag (text : String) : Option Bool :=
  match Unicode.lowerText text with
  | "1" => some true
  | "0" => some false
  | word => wordFlag? word

/-- A scalar as a truth value: a number is true if it is not zero. -/
def anyFlag : Data → Option Bool
  | .bool b => some b
  | .int n => some (n ≠ 0)
  | .real x => some !x.isZero
  | .text s | .other s => textFlag s
  | _ => none

/-- The natural number of 64 bits that a text stands for, with or without a plus sign. -/
def textCount (text : String) : Option Nat :=
  let cs := text.toList
  let ds := if cs.head? == some '+' then cs.drop 1 else cs
  (Digits.number? 10 ds).filter Word.holds

/-- A scalar as a natural number of 64 bits. -/
def anyCount : Data → Option Nat
  | .bool b => some b.toNat
  | .int n => plainCount (.int n)
  | .real x => some x.roundToCount
  | .text s | .other s =>
    match wordFlag? (Unicode.lowerText s) with
    | some b => some b.toNat
    | none => textCount s
  | _ => none

/-- One of some names in any case: the name itself, or a table that binds nothing but the name. -/
def anyChoice (names : List String) : Data → Option String
  | .text s | .other s | .table [(s, _)] => names.find? fun name => Unicode.lowerText name == Unicode.lowerText s
  | _ => none

/-- How settings are read. -/
def lenient : Reading where
  text := anyText
  flag := anyFlag
  count := anyCount
  choice := anyChoice
  ignoresExcess := true

end Aggregate.Reading
