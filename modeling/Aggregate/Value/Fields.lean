import Aggregate.Keyed
import Aggregate.Value.Order

/-!
# Fields

The named fields of an entity. An absent field reads as `null`.
-/

namespace Aggregate

/-- Fields in ascending order of their names. -/
abbrev Fields := List (String × Value)

namespace Fields

/-- The value of a field, `null` when it is absent. -/
def get (fields : Fields) (name : String) : Value :=
  (fields.lookup name).getD .null

/-- The fields with one field set. -/
def set (fields : Fields) (name : String) (value : Value) : Fields :=
  Keyed.insert name value fields

@[simp] theorem get_set_self (fields : Fields) (name : String) (value : Value) :
    (fields.set name value).get name = value := by
  simp [get, set]

theorem get_set_of_ne {name other : String} (h : other ≠ name) (fields : Fields) (value : Value) :
    (fields.set name value).get other = fields.get other := by
  simp [get, set, Keyed.lookup_insert_of_ne h]

end Fields

end Aggregate
