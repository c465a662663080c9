import Aggregate.Data.Basic
import Aggregate.Keyed

/-!
# Reading documents

What a document says in place of a text, a flag, a count, a choice or a record depends on the format it comes from.

- `Reading`: one way of reading scalars;
- `Reading.json` and `Reading.toml` take every scalar as it is written;
- `Reading.record`: the fields of a table, or of a list that gives them in order.
-/

namespace Aggregate

/-- A way of reading the parts of a document. -/
structure Reading where
  text : Data → Option String
  flag : Data → Option Bool
  /-- A natural number of 64 bits. -/
  count : Data → Option Nat
  /-- One of some names. -/
  choice : List String → Data → Option String
  /-- Whether a list in place of a record may be longer than the record. -/
  ignoresExcess : Bool

namespace Reading

/-! ## Strict reading -/

/-- A text as it is written. -/
def plainText : Data → Option String
  | .text s => some s
  | _ => none

/-- A truth value as it is written. -/
def plainFlag : Data → Option Bool
  | .bool b => some b
  | _ => none

/-- A natural number as it is written. -/
def plainCount : Data → Option Nat
  | .int n => if 0 ≤ n && Word.holds n.toNat then some n.toNat else none
  | _ => none

/-- One of some names: the name itself, or a table that binds nothing but the name, to something `hollow`. -/
def plainChoice (hollow : Data → Bool) (names : List String) : Data → Option String
  | .text s => if s ∈ names then some s else none
  | .table [(s, d)] => if s ∈ names && hollow d then some s else none
  | _ => none

/-- How JSON is read. -/
def json : Reading where
  text := plainText
  flag := plainFlag
  count := plainCount
  choice := plainChoice fun | .null => true | _ => false
  ignoresExcess := false

/-- How TOML is read. -/
def toml : Reading where
  text := plainText
  flag := plainFlag
  count := plainCount
  choice := plainChoice fun | .list [] | .table [] => true | _ => false
  ignoresExcess := true

/-! ## Composite parts -/

/-- The value bound to a name; a name may not be bound twice. -/
def member (entries : List (String × Data)) (name : String) : Option (Option Data) :=
  match entries.filter (·.1 == name) with
  | [] => some none
  | [entry] => some (some entry.2)
  | _ => none

/-- The fields of a record, found by name. Fields without a value are absent, and other members count for nothing. -/
def record (r : Reading) (names : List String) : Data → Option (String → Option Data)
  | .table entries => do
    let values ← names.mapM fun name => (member entries name).map (name, ·)
    return fun name => (values.lookup name).join
  | .list items =>
    if items.length ≤ names.length || r.ignoresExcess then
      some fun name => (names.zip items).lookup name
    else none
  | _ => none

/-- A list whose items are read one by one. -/
def items {α : Type} (item : Data → Option α) : Data → Option (List α)
  | .list ds => ds.mapM item
  | _ => none

/-- A table of texts; of several texts for one name the last one counts. -/
def texts (r : Reading) : Data → Option (List (String × String))
  | .table entries => do
    return Keyed.ofList (← entries.mapM fun entry => (r.text entry.2).map (entry.1, ·))
  | _ => none

/-- A field that may be absent or null. -/
def optional {α : Type} (read : Data → Option α) : Option Data → Option (Option α)
  | none | some .null => some none
  | some d => (read d).map some

/-- A field that may be absent, and then has a value of its own. -/
def orElse {α : Type} (absent : α) (read : Data → Option α) : Option Data → Option α
  | none => some absent
  | some d => read d

/-- A field that has to be there. -/
def required {α : Type} (read : Data → Option α) : Option Data → Option α
  | none => none
  | some d => read d

end Reading

end Aggregate
