import Aggregate.Data.Reading
import Aggregate.Value.Fields
import Aggregate.Value.Set

/-!
# Values as documents

The form of values as JSON documents: every value but `null` is a table that binds the name of its kind to its
content, and `null` is the text `Null`. Sets keep their elements as they are. A table has texts for its keys, so the
only map key that can be written is `null`.

- `Value.toData?` writes that form, `Value.ofData?` reads it.
-/

namespace Aggregate

/-- The name of a set ordering. -/
def SetOrdering.name : SetOrdering → String
  | hashed => "hashed"
  | linked => "linked"
  | sorted => "sorted"

/-- The set ordering with a name. -/
def SetOrdering.ofName? : String → Option SetOrdering
  | "hashed" => some hashed
  | "linked" => some linked
  | "sorted" => some sorted
  | _ => none

namespace Value

/-! ## Writing -/

mutual

/-- The form of a value, if its maps have no other key than `null`. -/
def toData? : Value → Option Data
  | null => some (.text "Null")
  | bool b => some (.table [("Bool", .bool b)])
  | int n => some (.table [("Int", .int n.toInt)])
  | text s => some (.table [("Text", .text s)])
  | entity type fields =>
    (toDataFields? fields).map fun ds => .table [("Entity", .table [("type_name", .text type), ("fields", .table ds)])]
  | list items => (toDataAll? items).map fun ds => .table [("List", .list ds)]
  | set ordering elements =>
    (toDataAll? elements).map fun ds =>
      .table [("Set", .table [("ordering", .text ordering.name), ("elements", .list ds)])]
  | map entries => (toDataEntries? entries).map fun ds => .table [("Map", .table ds)]
termination_by structural v => v

/-- The forms of several values. -/
def toDataAll? : List Value → Option (List Data)
  | [] => some []
  | v :: rest =>
    match v.toData?, toDataAll? rest with
    | some d, some ds => some (d :: ds)
    | _, _ => none
termination_by structural vs => vs

/-- The form of a field. -/
def toDataField? : String × Value → Option (String × Data)
  | (name, v) => v.toData?.map (name, ·)
termination_by structural f => f

/-- The forms of several fields. -/
def toDataFields? : List (String × Value) → Option (List (String × Data))
  | [] => some []
  | f :: rest =>
    match toDataField? f, toDataFields? rest with
    | some d, some ds => some (d :: ds)
    | _, _ => none
termination_by structural fs => fs

/-- The form of a map entry. -/
def toDataEntry? : Value × Value → Option (String × Data)
  | (null, v) => v.toData?.map ("Null", ·)
  | _ => none
termination_by structural e => e

/-- The forms of several map entries. -/
def toDataEntries? : List (Value × Value) → Option (List (String × Data))
  | [] => some []
  | e :: rest =>
    match toDataEntry? e, toDataEntries? rest with
    | some d, some ds => some (d :: ds)
    | _, _ => none
termination_by structural es => es

end

/-! ## Reading -/

/-- An integer of 64 bits. -/
def ofInt? (n : Int) : Option Value :=
  if Word.holdsSigned n then some (.int (Int64.ofInt n)) else none

/-- The ordering a document names. -/
def orderingOf? (d : Data) : Option SetOrdering :=
  (Reading.json.choice ["hashed", "linked", "sorted"] d).bind SetOrdering.ofName?

/-- What a member of the form of an entity or a set is about. -/
inductive Part (α β : Type) where
  | first (a : α)
  | second (b : β)
  | unknown

/-- One more part to two parts read so far; neither may come twice. -/
def Part.add {α β : Type} : Part α β → Option α × Option β → Option (Option α × Option β)
  | first a, (none, b) => some (some a, b)
  | second b, (a, none) => some (a, some b)
  | unknown, parts => some parts
  | _, _ => none

mutual

/-- The value with a form. -/
def ofData? : Data → Option Value
  | .text "Null" => some null
  | .table [e] => ofVariant? e
  | _ => none
termination_by structural d => d

/-- The value of the kind that a name tells, with a content. -/
def ofVariant? : String × Data → Option Value
  | ("Null", .null) => some null
  | ("Bool", .bool b) => some (bool b)
  | ("Int", .int n) => ofInt? n
  | ("Text", .text s) => some (text s)
  | ("Entity", .list [.text type]) => some (entity type [])
  | ("Entity", .list [.text type, .table fields]) => (ofFields? fields).map fun fs => entity type (Keyed.ofList fs)
  | ("Entity", .table members) =>
    match entityParts? members with
    | some (some type, fields) => some (entity type (Keyed.ofList (fields.getD [])))
    | _ => none
  | ("List", .list items) => (ofAll? items).map list
  | ("Set", .list [ordering, .list elements]) =>
    match orderingOf? ordering, ofAll? elements with
    | some o, some vs => some (set o vs)
    | _, _ => none
  | ("Set", .table members) =>
    match setParts? members with
    | some (some o, some vs) => some (set o vs)
    | _ => none
  | ("Map", .table entries) => (ofEntries? entries).map fun es => map (Keyed.ofList es)
  | _ => none
termination_by structural e => e

/-- The values with several forms. -/
def ofAll? : List Data → Option (List Value)
  | [] => some []
  | d :: rest =>
    match ofData? d, ofAll? rest with
    | some v, some vs => some (v :: vs)
    | _, _ => none
termination_by structural ds => ds

/-- The field with a form. -/
def ofField? : String × Data → Option (String × Value)
  | (name, d) => (ofData? d).map (name, ·)
termination_by structural f => f

/-- The fields with several forms. -/
def ofFields? : List (String × Data) → Option (List (String × Value))
  | [] => some []
  | f :: rest =>
    match ofField? f, ofFields? rest with
    | some v, some vs => some (v :: vs)
    | _, _ => none
termination_by structural fs => fs

/-- The map entry with a form. -/
def ofEntry? : String × Data → Option (Value × Value)
  | ("Null", d) => (ofData? d).map (null, ·)
  | _ => none
termination_by structural e => e

/-- The map entries with several forms. -/
def ofEntries? : List (String × Data) → Option (List (Value × Value))
  | [] => some []
  | e :: rest =>
    match ofEntry? e, ofEntries? rest with
    | some v, some vs => some (v :: vs)
    | _, _ => none
termination_by structural es => es

/-- A member of the form of an entity. -/
def entityPart? : String × Data → Option (Part String (List (String × Value)))
  | ("type_name", .text s) => some (.first s)
  | ("type_name", _) => none
  | ("fields", .table fields) => (ofFields? fields).map .second
  | ("fields", _) => none
  | _ => some .unknown
termination_by structural m => m

/-- The members of the form of an entity: its type and its fields. -/
def entityParts? : List (String × Data) → Option (Option String × Option (List (String × Value)))
  | [] => some (none, none)
  | m :: rest =>
    match entityPart? m, entityParts? rest with
    | some part, some parts => part.add parts
    | _, _ => none
termination_by structural ms => ms

/-- A member of the form of a set. -/
def setPart? : String × Data → Option (Part SetOrdering (List Value))
  | ("ordering", d) => (orderingOf? d).map .first
  | ("elements", .list elements) => (ofAll? elements).map .second
  | ("elements", _) => none
  | _ => some .unknown
termination_by structural m => m

/-- The members of the form of a set: its ordering and its elements. -/
def setParts? : List (String × Data) → Option (Option SetOrdering × Option (List Value))
  | [] => some (none, none)
  | m :: rest =>
    match setPart? m, setParts? rest with
    | some part, some parts => part.add parts
    | _, _ => none
termination_by structural ms => ms

end

end Value

end Aggregate
