/-!
# Values

The dynamically shaped values an aggregate is made of: scalars, entities with named fields, and the three kinds
of container.

- `Value`, with its kinds (`Value.kind`) and their labels;
- `Value.render`, the one-line text of a value.
-/

namespace Aggregate

/-- How a set hands out its elements: in no promised order, in order of insertion, or in ascending order. -/
inductive SetOrdering where
  | hashed
  | linked
  | sorted
  deriving DecidableEq, Repr, Ord

/-- A value inside an aggregate. The fields of an entity and the entries of a map are kept in ascending order of
their keys, each key once. -/
inductive Value where
  | null
  | bool (b : Bool)
  | int (n : Int64)
  | text (s : String)
  | entity (type : String) (fields : List (String × Value))
  | list (items : List Value)
  | set (ordering : SetOrdering) (elements : List Value)
  | map (entries : List (Value × Value))

namespace Value

instance : Inhabited Value := ⟨.null⟩

/-! ## Kinds -/

/-- What a value is, regardless of its content. -/
inductive Kind where
  | null
  | bool
  | int
  | text
  | entity
  | list
  | set (ordering : SetOrdering)
  | map
  deriving DecidableEq, Repr

/-- The kind as diagnostics name it. -/
def Kind.label : Kind → String
  | null => "null"
  | bool => "bool"
  | int => "int"
  | text => "text"
  | entity => "entity"
  | list => "list"
  | set .hashed => "hashed set"
  | set .linked => "linked set"
  | set .sorted => "sorted set"
  | map => "map"

/-- The kind of a value. -/
def kind : Value → Kind
  | null => .null
  | bool _ => .bool
  | int _ => .int
  | text _ => .text
  | entity .. => .entity
  | list _ => .list
  | set ordering _ => .set ordering
  | map _ => .map

/-- Whether the value is `null`. -/
def isNull : Value → Bool
  | null => true
  | _ => false

/-- Whether the value is an entity. -/
def isEntity : Value → Bool
  | entity .. => true
  | _ => false

/-- The type of an entity. -/
def type? : Value → Option String
  | entity type _ => some type
  | _ => none

@[simp] theorem isNull_iff {v : Value} : v.isNull = true ↔ v = null := by
  cases v <;> simp [isNull]

/-- A position as a value. Positions from `2 ^ 63` on wrap around to the negative integers. -/
def ofPosition (position : Nat) : Value :=
  .int (Int64.ofNat position)

/-- An absent value is `null`. -/
def ofOption : Option Value → Value
  | none => null
  | some v => v

/-! ## Text -/

mutual

/-- The text of a value: an entity is its type with its fields in braces, a list stands in brackets, sets and maps
stand in braces. -/
def render : Value → String
  | null => "null"
  | bool true => "true"
  | bool false => "false"
  | int n => n.toInt.repr
  | text s => s
  | entity type fields => type ++ "\x7b" ++ ", ".intercalate (renderFields fields) ++ "\x7d"
  | list items => "[" ++ ", ".intercalate (renderAll items) ++ "]"
  | set _ elements => "\x7b" ++ ", ".intercalate (renderAll elements) ++ "\x7d"
  | map entries => "\x7b" ++ ", ".intercalate (renderEntries entries) ++ "\x7d"
termination_by structural v => v

/-- The texts of several values. -/
def renderAll : List Value → List String
  | [] => []
  | v :: rest => v.render :: renderAll rest
termination_by structural vs => vs

/-- The text of one field. -/
def renderField : String × Value → String
  | (name, v) => name ++ "=" ++ v.render
termination_by structural f => f

/-- The texts of several fields. -/
def renderFields : List (String × Value) → List String
  | [] => []
  | f :: rest => renderField f :: renderFields rest
termination_by structural fs => fs

/-- The text of one map entry. -/
def renderEntry : Value × Value → String
  | (k, v) => k.render ++ "=" ++ v.render
termination_by structural e => e

/-- The texts of several map entries. -/
def renderEntries : List (Value × Value) → List String
  | [] => []
  | e :: rest => renderEntry e :: renderEntries rest
termination_by structural es => es

end

end Value

end Aggregate
