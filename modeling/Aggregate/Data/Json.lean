import Aggregate.Data.Basic

/-!
# JSON

Reading JSON texts.

- `Json.read`: the document a text stands for, if the text is JSON. What stands too deep or has broken strings is
  `unreadable` in it, which does no harm as long as nobody reads it.
-/

namespace Aggregate.Json

/-- Whether a character is blank between the parts of a text. -/
def isBlank (c : Char) : Bool := c == ' ' || c == '\n' || c == '\t' || c == '\r'

/-- The rest of a text behind blanks. -/
def skipBlank (cs : List Char) : List Char := cs.dropWhile isBlank

/-! ## Strings -/

/-- The character that a character behind a backslash stands for. -/
def escaped? : Char → Option Char
  | '"' => some '"'
  | '\\' => some '\\'
  | '/' => some '/'
  | 'b' => some '\x08'
  | 'f' => some '\x0c'
  | 'n' => some '\n'
  | 'r' => some '\r'
  | 't' => some '\t'
  | _ => none

/-- Whether a number is the first half of a character written as two. -/
def isHighHalf (n : Nat) : Bool := 0xD800 ≤ n && n < 0xDC00

/-- Whether a number is the second half of a character written as two. -/
def isLowHalf (n : Nat) : Bool := 0xDC00 ≤ n && n < 0xE000

/-- The character written as two halves. -/
def joinHalves (high low : Nat) : Char := Char.ofNat (0x10000 + (high - 0xD800) * 0x400 + (low - 0xDC00))

/-- A part of a string: a character, or a number given by an escape, which may be half of a character. -/
abbrev Piece := Char ⊕ Nat

/-- The parts of a string up to its closing quote. -/
def pieces : List Char → Option (List Piece × List Char)
  | [] => none
  | '"' :: rest => some ([], rest)
  | '\\' :: 'u' :: a :: b :: c :: d :: rest => do
    let n ← Digits.number? 16 [a, b, c, d]
    let (tail, rest) ← pieces rest
    return (.inr n :: tail, rest)
  | '\\' :: c :: rest => do
    let c ← escaped? c
    let (tail, rest) ← pieces rest
    return (.inl c :: tail, rest)
  | c :: rest => do
    if c.toNat < 0x20 || c == '\\' then none
    let (tail, rest) ← pieces rest
    return (.inl c :: tail, rest)

/-- The characters that the parts of a string make up; none if a half of a character stands alone. -/
def joined : List Piece → Option (List Char)
  | [] => some []
  | .inl c :: rest => (joined rest).map (c :: ·)
  | .inr n :: .inr m :: rest =>
    if isHighHalf n then
      if isLowHalf m then (joined rest).map (joinHalves n m :: ·) else none
    else if isLowHalf n then none
    else (joined (.inr m :: rest)).map (Char.ofNat n :: ·)
  | .inr n :: rest =>
    if isHighHalf n || isLowHalf n then none else (joined rest).map (Char.ofNat n :: ·)

/-- The text of a string behind its opening quote, if all its characters are whole. -/
def string? (cs : List Char) : Option (Option String × List Char) := do
  let (body, rest) ← pieces cs
  return ((joined body).map String.ofList, rest)

/-! ## Numbers -/

/-- A run of digits, which may not be empty. -/
def digits? (cs : List Char) : Option (List Char × List Char) :=
  let ds := cs.takeWhile Char.isDigit
  if ds.isEmpty then none else some (ds, cs.dropWhile Char.isDigit)

/-- The digits behind a point, if there is one. -/
def places? : List Char → Option (List Char × List Char)
  | '.' :: rest => digits? rest
  | cs => some ([], cs)

/-- The sign and the digits of an exponent, if there is one. -/
def exponent? : List Char → Option (Option Int × List Char)
  | c :: rest =>
    if c == 'e' || c == 'E' then do
      let (negative, rest) := Binary64.takeSign rest
      let (ds, rest) ← digits? rest
      let n : Int := Digits.number 10 ds
      return (some (if negative then -n else n), rest)
    else some (none, c :: rest)
  | [] => some (none, [])

/-- A number without point and exponent: an integer if it fits into 64 bits, with or without a sign. -/
def integer (negative : Bool) (n : Nat) : Data :=
  if negative && n ≠ 0 && Word.holdsSigned (-n) then .int (-n)
  else if !negative && Word.holds n then .int n
  else .real (.ofDecimal negative n 0)

/-- A number. -/
def number? (cs : List Char) : Option (Data × List Char) := do
  let (negative, cs) :=
    match cs with
    | '-' :: rest => (true, rest)
    | cs => (false, cs)
  let (whole, rest) ← digits? cs
  if whole.length > 1 && whole.head? == some '0' then none
  let (places, behind) ← places? rest
  let (exponent, behind) ← exponent? behind
  if places.isEmpty && exponent.isNone then return (integer negative (Digits.number 10 whole), behind)
  let digits := Digits.number 10 (whole ++ places)
  return (.real (.ofDecimal negative digits (exponent.getD 0 - places.length)), behind)

/-! ## Documents -/

/-- What is JSON, but neither a text nor a list nor a table that anything can be read from. -/
def unreadable : Data := .other ""

/-- A list or a table, with room for so many more levels from it on. -/
def within (room : Nat) (d : Data) : Data := if room = 0 then unreadable else d

mutual

/-- A value, with room for so many levels of lists and tables, reading at most `fuel` parts of it. -/
def value (room : Nat) : (fuel : Nat) → List Char → Option (Data × List Char)
  | 0, _ => none
  | fuel + 1, cs =>
    match skipBlank cs with
    | 'n' :: 'u' :: 'l' :: 'l' :: rest => some (.null, rest)
    | 't' :: 'r' :: 'u' :: 'e' :: rest => some (.bool true, rest)
    | 'f' :: 'a' :: 'l' :: 's' :: 'e' :: rest => some (.bool false, rest)
    | '"' :: rest => do
      let (text, rest) ← string? rest
      return (text.elim unreadable .text, rest)
    | '[' :: rest =>
      match skipBlank rest with
      | ']' :: rest => some (within room (.list []), rest)
      | rest => do
        let (items, rest) ← items (room - 1) fuel rest
        return (within room (.list items), rest)
    | '\x7b' :: rest =>
      match skipBlank rest with
      | '\x7d' :: rest => some (within room (.table []), rest)
      | rest => do
        let (members, rest) ← members (room - 1) fuel rest
        return (within room (members.elim unreadable .table), rest)
    | cs => number? cs

/-- The items of a list up to its closing bracket. -/
def items (room : Nat) : (fuel : Nat) → List Char → Option (List Data × List Char)
  | 0, _ => none
  | fuel + 1, cs => do
    let (d, rest) ← value room fuel cs
    match skipBlank rest with
    | ']' :: rest => return ([d], rest)
    | ',' :: rest => do
      let (further, rest) ← items room fuel rest
      return (d :: further, rest)
    | _ => none

/-- The members of a table up to its closing brace, if all their names are whole. -/
def members (room : Nat) : (fuel : Nat) → List Char → Option (Option (List (String × Data)) × List Char)
  | 0, _ => none
  | fuel + 1, cs =>
    match skipBlank cs with
    | '"' :: rest => do
      let (name, rest) ← string? rest
      match skipBlank rest with
      | ':' :: rest => do
        let (d, rest) ← value room fuel rest
        let first := name.map (·, d)
        match skipBlank rest with
        | '\x7d' :: rest => return (first.map ([·]), rest)
        | ',' :: rest => do
          let (further, rest) ← members room fuel rest
          return (first.bind fun m => further.map (m :: ·), rest)
        | _ => none
      | _ => none
    | _ => none

end

/-- So many levels of lists and tables can be read. -/
def levelLimit : Nat := 127

/-- The document a text stands for. -/
def read (text : String) : Option Data := do
  let cs := text.toList
  let (d, rest) ← value levelLimit (2 * cs.length + 2) cs
  if (skipBlank rest).isEmpty then some d else none

end Aggregate.Json
