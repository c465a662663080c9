import Aggregate.Data.Basic
import Aggregate.Data.Toml.Moment
import Aggregate.Keyed

/-!
# Wrapped moments

A moment may also be written as a table whose first name is a reserved one, bound to the text of the moment. The rest
of such a table counts for nothing. All other tables are put in the order of their names.

- `unwrap?`: a document with all its wrapped moments in place of their tables.
-/

namespace Aggregate.Toml

/-- The name that makes a table a moment. -/
def momentName : String := "$__toml_private_datetime"

/-- What a table wraps, if its first name is the reserved one. -/
def wrapped? : List (String × Data) → Option (Option Data)
  | (name, d) :: _ =>
    if name = momentName then
      match d with
      | .text text => some ((Moment.ofText? text).map fun m => .other m.render)
      | _ => some none
    else none
  | [] => none

mutual

/-- A document with its moments unwrapped; there is none if a reserved name does not come with a moment. -/
def unwrap? : Data → Option Data
  | .table entries =>
    match wrapped? entries with
    | some d => d
    | none => (unwrapEntries? entries).map fun es => .table (Keyed.ofList es)
  | .list ds => (unwrapAll? ds).map .list
  | d => some d
termination_by structural d => d

/-- Several documents with their moments unwrapped. -/
def unwrapAll? : List Data → Option (List Data)
  | [] => some []
  | d :: rest =>
    match unwrap? d, unwrapAll? rest with
    | some d, some ds => some (d :: ds)
    | _, _ => none
termination_by structural ds => ds

/-- An entry with its moments unwrapped. -/
def unwrapEntry? : String × Data → Option (String × Data)
  | (name, d) => (unwrap? d).map (name, ·)
termination_by structural e => e

/-- Several entries with their moments unwrapped. -/
def unwrapEntries? : List (String × Data) → Option (List (String × Data))
  | [] => some []
  | e :: rest =>
    match unwrapEntry? e, unwrapEntries? rest with
    | some e, some es => some (e :: es)
    | _, _ => none
termination_by structural es => es

end

end Aggregate.Toml
