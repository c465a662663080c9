import Aggregate.Value.Basic

/-!
# The order of values

Values are ordered first by kind and then by content: containers compare element by element, a proper initial part
before the whole, entities by type name and then by their fields.

- `Value.compare` is that order;
- `Value.compare_eq_eq`: it answers `eq` on equal values only, which also decides equality of values.
-/

namespace Aggregate

namespace Value

/-- The place of the value's kind in the order of kinds. -/
def rank : Value → Nat
  | null => 0
  | bool _ => 1
  | int _ => 2
  | text _ => 3
  | entity .. => 4
  | list _ => 5
  | set .. => 6
  | map _ => 7

mutual

/-- The order of values. -/
protected def compare : Value → Value → Ordering
  | null, null => .eq
  | bool a, bool b => Ord.compare a b
  | int a, int b => Ord.compare a b
  | text a, text b => Ord.compare a b
  | entity s fs, entity t gs => (Ord.compare s t).then (compareFields fs gs)
  | list vs, list ws => compareAll vs ws
  | set o vs, set p ws => (Ord.compare o p).then (compareAll vs ws)
  | map es, map fs => compareEntries es fs
  | v, w => Ord.compare v.rank w.rank
termination_by structural v => v

/-- Sequences compare at their first difference. -/
def compareAll : List Value → List Value → Ordering
  | [], [] => .eq
  | [], _ :: _ => .lt
  | _ :: _, [] => .gt
  | v :: vs, w :: ws => (v.compare w).then (compareAll vs ws)
termination_by structural vs => vs

/-- Fields compare by name, then by value. -/
def compareField : String × Value → String × Value → Ordering
  | (m, v), (n, w) => (Ord.compare m n).then (v.compare w)
termination_by structural f => f

/-- Field lists compare at their first difference. -/
def compareFields : List (String × Value) → List (String × Value) → Ordering
  | [], [] => .eq
  | [], _ :: _ => .lt
  | _ :: _, [] => .gt
  | f :: fs, g :: gs => (compareField f g).then (compareFields fs gs)
termination_by structural fs => fs

/-- Entries compare by key, then by value. -/
def compareEntry : Value × Value → Value × Value → Ordering
  | (k, v), (l, w) => (k.compare l).then (v.compare w)
termination_by structural e => e

/-- Entry lists compare at their first difference. -/
def compareEntries : List (Value × Value) → List (Value × Value) → Ordering
  | [], [] => .eq
  | [], _ :: _ => .lt
  | _ :: _, [] => .gt
  | e :: es, f :: fs => (compareEntry e f).then (compareEntries es fs)
termination_by structural es => es

end

instance : Ord Value := ⟨Value.compare⟩

/-! ## Equality -/

theorem compare_setOrdering_eq {o p : SetOrdering} : Ord.compare o p = .eq ↔ o = p := by
  cases o <;> cases p <;> decide

mutual

/-- Only equal values compare as equal. -/
theorem compare_eq_eq : ∀ v w : Value, v.compare w = .eq ↔ v = w
  | null, w => by cases w <;> simp [Value.compare, rank]
  | bool _, w => by cases w <;> simp [Value.compare, rank]
  | int _, w => by cases w <;> simp [Value.compare, rank]
  | text _, w => by cases w <;> simp [Value.compare, rank]
  | entity _ fs, w => by cases w <;> simp [Value.compare, rank, Ordering.then_eq_eq, compareFields_eq_eq fs]
  | list vs, w => by cases w <;> simp [Value.compare, rank, compareAll_eq_eq vs]
  | set _ vs, w => by
    cases w <;> simp [Value.compare, rank, Ordering.then_eq_eq, compare_setOrdering_eq, compareAll_eq_eq vs]
  | map es, w => by cases w <;> simp [Value.compare, rank, compareEntries_eq_eq es]

theorem compareAll_eq_eq : ∀ vs ws : List Value, compareAll vs ws = .eq ↔ vs = ws
  | [], ws => by cases ws <;> simp [compareAll]
  | v :: vs, ws => by cases ws <;> simp [compareAll, Ordering.then_eq_eq, compare_eq_eq v, compareAll_eq_eq vs]

theorem compareField_eq_eq : ∀ f g : String × Value, compareField f g = .eq ↔ f = g
  | (_, v), (_, _) => by simp [compareField, Ordering.then_eq_eq, compare_eq_eq v]

theorem compareFields_eq_eq : ∀ fs gs : List (String × Value), compareFields fs gs = .eq ↔ fs = gs
  | [], gs => by cases gs <;> simp [compareFields]
  | f :: fs, gs => by
    cases gs <;> simp [compareFields, Ordering.then_eq_eq, compareField_eq_eq f, compareFields_eq_eq fs]

theorem compareEntry_eq_eq : ∀ e f : Value × Value, compareEntry e f = .eq ↔ e = f
  | (k, v), (_, _) => by simp [compareEntry, Ordering.then_eq_eq, compare_eq_eq k, compare_eq_eq v]

theorem compareEntries_eq_eq : ∀ es fs : List (Value × Value), compareEntries es fs = .eq ↔ es = fs
  | [], fs => by cases fs <;> simp [compareEntries]
  | e :: es, fs => by
    cases fs <;> simp [compareEntries, Ordering.then_eq_eq, compareEntry_eq_eq e, compareEntries_eq_eq es]

end

instance : Std.LawfulEqOrd Value where
  compare_self := (compare_eq_eq _ _).2 rfl
  eq_of_compare := (compare_eq_eq _ _).1

instance : DecidableEq Value := fun v w => decidable_of_iff (v.compare w = .eq) (compare_eq_eq v w)

end Value

end Aggregate
