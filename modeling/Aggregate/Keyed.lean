/-!
# Keyed lists

Association lists in ascending order of their keys, each key once.

- `insert` binds a key, in place or at its place in the order;
- `lookup_insert_self`, `lookup_insert_of_ne`: what `List.lookup` finds afterwards.
-/

namespace Aggregate.Keyed

variable {κ α : Type} [Ord κ]

/-- The entries with `key` bound to `value`. -/
def insert (key : κ) (value : α) : List (κ × α) → List (κ × α)
  | [] => [(key, value)]
  | (k, v) :: rest =>
    match compare key k with
    | .lt => (key, value) :: (k, v) :: rest
    | .eq => (k, value) :: rest
    | .gt => (k, v) :: insert key value rest

/-- The keyed list of some entries; of several values for one key the last one stays. -/
def ofList (entries : List (κ × α)) : List (κ × α) :=
  entries.foldl (fun bound entry => insert entry.1 entry.2 bound) []

variable [DecidableEq κ] [Std.LawfulEqOrd κ]

@[simp] theorem lookup_insert_self (key : κ) (value : α) (entries : List (κ × α)) :
    (insert key value entries).lookup key = some value := by
  induction entries with
  | nil => simp [insert]
  | cons entry rest ih =>
    obtain ⟨k, v⟩ := entry
    simp only [insert]
    split
    · simp
    · rename_i h
      simp [Std.LawfulEqOrd.eq_of_compare h]
    · rename_i h
      have hne : (key == k) = false := by
        refine beq_false_of_ne fun e => ?_
        subst e
        rw [Std.compare_self] at h
        exact absurd h (by decide)
      simp [List.lookup_cons, hne, ih]

theorem lookup_insert_of_ne {key other : κ} (h : other ≠ key) (value : α) (entries : List (κ × α)) :
    (insert key value entries).lookup other = entries.lookup other := by
  induction entries with
  | nil => simp [insert, List.lookup_cons, beq_false_of_ne h]
  | cons entry rest ih =>
    obtain ⟨k, v⟩ := entry
    simp only [insert]
    split
    · simp [List.lookup_cons, beq_false_of_ne h]
    · rename_i hk
      have hne : (other == k) = false := by
        rw [← Std.LawfulEqOrd.eq_of_compare hk]
        exact beq_false_of_ne h
      simp [List.lookup_cons, hne]
    · simp [List.lookup_cons, ih]

end Aggregate.Keyed
