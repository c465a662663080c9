import Aggregate.Data.Toml.Moment
import Aggregate.Data.Toml.Number
import Aggregate.Data.Toml.Table

/-!
# TOML

Reading TOML texts.

- `Toml.read`: the document a text stands for, if the text is TOML.
-/

namespace Aggregate.Toml

/-! ## Values -/

/-- A date, a time or a number. -/
def scalar? (cs : List Char) : Option (Data × List Char) :=
  match moment? cs with
  | some (m, rest) => some (.other m.render, rest)
  | none => number? cs

mutual

/-- A value, nested at most `room` deep, reading at most `fuel` parts of it. -/
def value (room : Nat) : (fuel : Nat) → List Char → Option (Data × List Char)
  | 0, _ => none
  | fuel + 1, cs =>
    match cs with
    | 't' :: 'r' :: 'u' :: 'e' :: rest => some (.bool true, rest)
    | 'f' :: 'a' :: 'l' :: 's' :: 'e' :: rest => some (.bool false, rest)
    | '[' :: rest =>
      match room with
      | 0 => none
      | room + 1 => do
        let (ds, rest) ← items room fuel rest
        return (.list ds, rest)
    | '\x7b' :: rest =>
      match room, skipBlank rest with
      | 0, _ => none
      | _ + 1, '\x7d' :: rest => some (.table [], rest)
      | room + 1, rest => do
        let (entries, rest) ← members room fuel rest
        return (← assembleInline entries, rest)
    | cs =>
      match string? cs with
      | some (text, rest) => some (.text text, rest)
      | none => scalar? cs

/-- The items of a list up to its closing bracket; a comma may stand behind the last one. -/
def items (room : Nat) : (fuel : Nat) → List Char → Option (List Data × List Char)
  | 0, _ => none
  | fuel + 1, cs => do
    match ← skipSpace false cs with
    | ']' :: rest => return ([], rest)
    | cs => do
      let (d, rest) ← value room fuel cs
      match ← skipSpace false rest with
      | ']' :: rest => return ([d], rest)
      | ',' :: rest => do
        let (ds, rest) ← items room fuel rest
        return (d :: ds, rest)
      | _ => none

/-- The entries of an inline table up to its closing brace. -/
def members (room : Nat) : (fuel : Nat) → List Char → Option (List (Key × Data) × List Char)
  | 0, _ => none
  | fuel + 1, cs => do
    let (key, rest) ← key? cs
    match rest with
    | '=' :: rest => do
      let (d, rest) ← value room fuel (skipBlank rest)
      match skipBlank rest with
      | '\x7d' :: rest => return ([(key, d)], rest)
      | ',' :: rest => do
        let (entries, rest) ← members room fuel rest
        return ((key, d) :: entries, rest)
      | _ => none
    | _ => none

end

/-! ## Documents -/

/-- The lines of a document, at most `fuel` of them. -/
def lines : (fuel : Nat) → List Char → Option (List Line)
  | 0, _ => none
  | fuel + 1, cs =>
    match skipBlank cs with
    | [] => some []
    | '[' :: '[' :: rest => do
      match ← key? rest with
      | (key, ']' :: ']' :: rest) => return .item key :: (← lines fuel (← finishLine? rest))
      | _ => none
    | '[' :: rest => do
      match ← key? rest with
      | (key, ']' :: rest) => return .table key :: (← lines fuel (← finishLine? rest))
      | _ => none
    | cs =>
      match finishLine? cs with
      | some rest => lines fuel rest
      | none => do
        match ← key? cs with
        | (key, '=' :: rest) => do
          let rest := skipBlank rest
          let (d, rest) ← value (depthLimit - 1) (2 * rest.length + 2) rest
          return .entry key d :: (← lines fuel (← finishLine? rest))
        | _ => none

/-- A text without the mark that may stand in front of it. -/
def skipMark : List Char → List Char
  | '\ufeff' :: rest => rest
  | cs => cs

/-- The document a text stands for. -/
def read (text : String) : Option Data := do
  let cs := skipMark text.toList
  assemble (← lines (cs.length + 1) cs)

end Aggregate.Toml
