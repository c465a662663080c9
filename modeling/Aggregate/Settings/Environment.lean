import Aggregate.Data.Basic
import Aggregate.Unicode.Lower

/-!
# Settings from variables

A variable such as `AGGREGATE__PLANNING__MAX_DEPTH` gives the setting `planning.max_depth`.

- `Environment.entries`: the settings that variables give, by their keys.
-/

namespace Aggregate.Environment

/-- How the names of variables for settings begin, in lower case. -/
def marker : List Char := "aggregate__".toList

/-- A text with a dot in place of each two underscores. -/
def dotted : List Char → List Char
  | '_' :: '_' :: rest => '.' :: dotted rest
  | c :: rest => c :: dotted rest
  | [] => []

/-- The key of the setting that a variable gives. -/
def key? (name : String) : Option String :=
  let cs := (Unicode.lowerText name).toList
  if marker.isPrefixOf cs then some (String.ofList (dotted (cs.drop marker.length))) else none

/-- The integer of 64 bits that a text stands for. -/
def integer? (text : String) : Option Int := do
  let (negative, ds) := Binary64.takeSign text.toList
  let n : Int ← (Digits.number? 10 ds).map Nat.cast
  let n := if negative then -n else n
  if Word.holdsSigned n then some n else none

/-- What the text of a variable stands for. -/
def scalar (text : String) : Data :=
  match Unicode.lowerText text with
  | "true" => .bool true
  | "false" => .bool false
  | _ =>
    match integer? text, Binary64.ofText? text with
    | some n, _ => .int n
    | none, some x => .real x
    | none, none => .text text

/-- The settings that variables give, by their keys. -/
def entries (vars : List (String × String)) : List (String × Data) :=
  vars.filterMap fun (name, text) => (key? name).map (·, scalar text)

end Aggregate.Environment
