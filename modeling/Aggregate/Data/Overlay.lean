import Aggregate.Data.Basic
import Aggregate.Keyed
import Aggregate.Unicode.Lower

/-!
# Laying documents over one another

A document is laid over another one table by table: what it says counts, and what it does not mention stays. Names are
written in lower case, except inside lists, which are taken over as they are.

- `Data.overlay`: a document over another one;
- `Location`: a place in a document, written like `tables.names[1]`;
- `Data.put`: a document with something laid over it at a place.
-/

namespace Aggregate

namespace Data

/-- The entries of a table; anything else has none. -/
def entries : Data → List (String × Data)
  | table es => es
  | _ => []

/-- The items of a list; anything else has none. -/
def items : Data → List Data
  | list ds => ds
  | _ => []

mutual

/-- A document laid over another one, of which nothing stays unless the new one is a table. -/
def overlay (below : Data) : Data → Data
  | table es => if es.isEmpty then below else table (overlayAll below.entries es)
  | d => d
termination_by structural d => d

/-- One more entry for a table, in place of an entry of the same name or laid over it. -/
def overlayEntry (below : List (String × Data)) : String × Data → List (String × Data)
  | (name, d) =>
    let name := Unicode.lowerText name
    Keyed.insert name (overlay ((below.lookup name).getD (table [])) d) below
termination_by structural e => e

/-- Several more entries for a table. -/
def overlayAll (below : List (String × Data)) : List (String × Data) → List (String × Data)
  | [] => below
  | e :: rest => overlayAll (overlayEntry below e) rest
termination_by structural es => es

end

end Data

/-! ## Places -/

/-- A step into a document: to the value of a name, or to an item of a list, from its end if the index is negative. -/
inductive Step where
  | name (s : String)
  | index (i : Int)

/-- A place in a document, as the steps that lead there. -/
abbrev Location := List Step

namespace Location

/-- Whether a character may stand in a name. -/
def isNamePart (c : Char) : Bool := c.isAlphanum || c == ' ' || c == '_' || c == '-'

/-- An index up to its closing bracket, with blanks around it. -/
def index? (cs : List Char) : Option (Int × List Char) := do
  let isBlank := fun c => c == ' ' || c == '\t'
  let (negative, cs) :=
    match cs.dropWhile isBlank with
    | '-' :: rest => (true, rest)
    | cs => (false, cs)
  let n : Int ← (Digits.number? 10 (cs.takeWhile Char.isDigit)).map Nat.cast
  let n := if negative then -n else n
  if !Word.holdsSigned n then none
  match (cs.dropWhile Char.isDigit).dropWhile isBlank with
  | ']' :: rest => return (n, rest)
  | _ => none

/-- A name, which may not be empty. -/
def name? (cs : List Char) : Option (String × List Char) :=
  let s := cs.takeWhile isNamePart
  if s.isEmpty then none else some (String.ofList s, cs.dropWhile isNamePart)

/-- The steps that a text spells behind a first name, at most `fuel` of them. -/
def steps? : (fuel : Nat) → List Char → Option Location
  | _, [] => some []
  | 0, _ => none
  | fuel + 1, '.' :: rest => do
    let (s, rest) ← name? rest
    return .name s :: (← steps? fuel rest)
  | fuel + 1, '[' :: rest => do
    let (i, rest) ← index? rest
    return .index i :: (← steps? fuel rest)
  | _, _ => none

/-- The place that a text in lower case spells, or else the value of that whole text as a name. -/
def ofText (text : String) : Location :=
  let text := Unicode.lowerText text
  let cs := text.toList
  match (do let (s, rest) ← name? cs; return Step.name s :: (← steps? cs.length rest) : Option Location) with
  | some l => l
  | none => [.name text]

end Location

namespace Data

/-- The position that an index means in a list. -/
def position (ds : List Data) (i : Int) : Nat :=
  if i < 0 then (ds.length + i).toNat else i.toNat

/-- A list with nulls at its end, so that it has an item at a position. -/
def reaching (ds : List Data) (position : Nat) : List Data :=
  ds ++ List.replicate (position + 1 - ds.length) null

/-- A document with another one laid over it at a place. Tables and lists on the way come to be where there are
none. -/
def put : Location → Data → Data → Data
  | [], d, _ => d
  | [.name s], d, below => table (overlayEntry below.entries (s, d))
  | .name s :: place, d, below =>
    let name := Unicode.lowerText s
    table (Keyed.insert name (put place d ((below.entries.lookup name).getD null)) below.entries)
  | .index i :: place, d, below =>
    let n := position below.items i
    let ds := reaching below.items n
    list (ds.set n (put place d (ds[n]?.getD null)))

end Data

end Aggregate
