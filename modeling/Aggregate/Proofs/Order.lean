import Mathlib
import Aggregate.Value.Order

/-!
# The order of values is total

- `Value.compare_swap`: comparing two values the other way round gives the reverse answer;
- `Value.compare_lt_trans`: what is smaller than a smaller value is smaller; first for values of different kinds
  (`Value.lt_trans_of_rank`), then by content;
- `Value.compare_total_order`: so values are totally ordered, and only equal values compare as equal.
-/

namespace Aggregate.Value

theorem compare_setOrdering_swap (o p : SetOrdering) : Ord.compare o p = (Ord.compare p o).swap := by
  cases o <;> cases p <;> rfl

theorem compare_rank_swap (v w : Value) : Ord.compare v.rank w.rank = (Ord.compare w.rank v.rank).swap :=
  Std.OrientedOrd.eq_swap

mutual

/-- Comparing the other way round gives the reverse answer. -/
theorem compare_swap : ∀ v w : Value, v.compare w = (w.compare v).swap
  | null, w => by cases w <;> rfl
  | bool a, w => by
    cases w with
    | bool b => exact Std.OrientedOrd.eq_swap
    | _ => exact compare_rank_swap _ _
  | int a, w => by
    cases w with
    | int b => exact Std.OrientedOrd.eq_swap
    | _ => exact compare_rank_swap _ _
  | text a, w => by
    cases w with
    | text b => exact Std.OrientedOrd.eq_swap
    | _ => exact compare_rank_swap _ _
  | entity s fs, w => by
    cases w with
    | entity t gs =>
      simp only [Value.compare, Ordering.swap_then]
      rw [compareFields_swap fs gs, Std.OrientedOrd.eq_swap (a := s) (b := t)]
    | _ => exact compare_rank_swap _ _
  | list vs, w => by
    cases w with
    | list ws => exact compareAll_swap vs ws
    | _ => exact compare_rank_swap _ _
  | set o vs, w => by
    cases w with
    | set p ws =>
      simp only [Value.compare, Ordering.swap_then]
      rw [compareAll_swap vs ws, compare_setOrdering_swap o p]
    | _ => exact compare_rank_swap _ _
  | map es, w => by
    cases w with
    | map fs => exact compareEntries_swap es fs
    | _ => exact compare_rank_swap _ _

theorem compareAll_swap : ∀ vs ws : List Value, compareAll vs ws = (compareAll ws vs).swap
  | [], ws => by cases ws <;> rfl
  | v :: vs, [] => rfl
  | v :: vs, w :: ws => by
    simp only [compareAll, Ordering.swap_then]
    rw [compare_swap v w, compareAll_swap vs ws]

theorem compareField_swap : ∀ f g : String × Value, compareField f g = (compareField g f).swap
  | (m, v), (n, w) => by
    simp only [compareField, Ordering.swap_then]
    rw [compare_swap v w, Std.OrientedOrd.eq_swap (a := m) (b := n)]

theorem compareFields_swap : ∀ fs gs : List (String × Value), compareFields fs gs = (compareFields gs fs).swap
  | [], gs => by cases gs <;> rfl
  | f :: fs, [] => rfl
  | f :: fs, g :: gs => by
    simp only [compareFields, Ordering.swap_then]
    rw [compareField_swap f g, compareFields_swap fs gs]

theorem compareEntry_swap : ∀ e f : Value × Value, compareEntry e f = (compareEntry f e).swap
  | (k, v), (l, w) => by
    simp only [compareEntry, Ordering.swap_then]
    rw [compare_swap k l, compare_swap v w]

theorem compareEntries_swap : ∀ es fs : List (Value × Value), compareEntries es fs = (compareEntries fs es).swap
  | [], fs => by cases fs <;> rfl
  | e :: es, [] => rfl
  | e :: es, f :: fs => by
    simp only [compareEntries, Ordering.swap_then]
    rw [compareEntry_swap e f, compareEntries_swap es fs]

end

instance : Std.OrientedOrd Value where
  eq_swap := compare_swap _ _

/-! ## Transitivity -/

/-- Comparing by a first part and then by a second one is transitive where both parts are. -/
theorem then_lt_trans {α β : Type} {f : α → α → Ordering} {g : β → β → Ordering} {a b c : α} {x y z : β}
    (heq : ∀ a b, f a b = .eq ↔ a = b) (hf : f a b = .lt → f b c = .lt → f a c = .lt)
    (hg : g x y = .lt → g y z = .lt → g x z = .lt) (h : (f a b).then (g x y) = .lt)
    (h' : (f b c).then (g y z) = .lt) : (f a c).then (g x z) = .lt := by
  rw [Ordering.then_eq_lt] at h h' ⊢
  rcases h with hab | ⟨hab, hxy⟩ <;> rcases h' with hbc | ⟨hbc, hyz⟩
  · exact .inl (hf hab hbc)
  · obtain rfl := (heq b c).1 hbc
    exact .inl hab
  · obtain rfl := (heq a b).1 hab
    exact .inl hbc
  · obtain rfl := (heq a b).1 hab
    exact .inr ⟨hbc, hg hxy hyz⟩

theorem compare_setOrdering_lt_trans (o p q : SetOrdering) :
    Ord.compare o p = .lt → Ord.compare p q = .lt → Ord.compare o q = .lt := by
  cases o <;> cases p <;> cases q <;> decide

theorem compare_of_rank_ne {v w : Value} (h : v.rank ≠ w.rank) : v.compare w = Ord.compare v.rank w.rank := by
  cases v <;> cases w <;> first | rfl | exact absurd rfl h

theorem compare_of_rank_lt {v w : Value} (h : v.rank < w.rank) : v.compare w = .lt := by
  rw [compare_of_rank_ne h.ne, Nat.compare_eq_lt]
  exact h

theorem rank_le_of_compare_lt {v w : Value} (h : v.compare w = .lt) : v.rank ≤ w.rank := by
  by_contra hlt
  rw [compare_of_rank_ne (Nat.lt_of_not_le hlt).ne', Nat.compare_eq_lt] at h
  exact hlt h.le

/-- Transitivity is about values of one kind: between different kinds it is that of the kinds. -/
theorem lt_trans_of_rank {u v w : Value} (h : u.compare v = .lt) (h' : v.compare w = .lt)
    (hsame : u.rank = v.rank → v.rank = w.rank → u.compare w = .lt) : u.compare w = .lt := by
  have hle := rank_le_of_compare_lt h
  have hle' := rank_le_of_compare_lt h'
  rcases Nat.lt_or_ge u.rank w.rank with hlt | hge
  · exact compare_of_rank_lt hlt
  · exact hsame (by omega) (by omega)

mutual

/-- What is smaller than a smaller value is smaller. -/
theorem compare_lt_trans : ∀ u v w : Value, u.compare v = .lt → v.compare w = .lt → u.compare w = .lt
  | null, v, w => fun h h' => lt_trans_of_rank h h' fun hv _ => by
    cases v with
    | null => exact absurd h (by decide)
    | _ => cases hv
  | bool a, v, w => fun h h' => lt_trans_of_rank h h' fun hv hw => by
    cases v with
    | bool b =>
      cases w with
      | bool c =>
        simp only [Value.compare] at h h' ⊢
        exact Std.TransCmp.lt_trans h h'
      | _ => cases hw
    | _ => cases hv
  | int a, v, w => fun h h' => lt_trans_of_rank h h' fun hv hw => by
    cases v with
    | int b =>
      cases w with
      | int c =>
        simp only [Value.compare] at h h' ⊢
        exact Std.TransCmp.lt_trans h h'
      | _ => cases hw
    | _ => cases hv
  | text a, v, w => fun h h' => lt_trans_of_rank h h' fun hv hw => by
    cases v with
    | text b =>
      cases w with
      | text c =>
        simp only [Value.compare] at h h' ⊢
        exact Std.TransCmp.lt_trans h h'
      | _ => cases hw
    | _ => cases hv
  | entity s fs, v, w => fun h h' => lt_trans_of_rank h h' fun hv hw => by
    cases v with
    | entity t gs =>
      cases w with
      | entity r hs =>
        exact then_lt_trans (fun _ _ => Std.LawfulEqOrd.compare_eq_iff_eq) Std.TransCmp.lt_trans
          (compareFields_lt_trans fs gs hs) h h'
      | _ => cases hw
    | _ => cases hv
  | list us, v, w => fun h h' => lt_trans_of_rank h h' fun hv hw => by
    cases v with
    | list vs =>
      cases w with
      | list ws => exact compareAll_lt_trans us vs ws h h'
      | _ => cases hw
    | _ => cases hv
  | set o us, v, w => fun h h' => lt_trans_of_rank h h' fun hv hw => by
    cases v with
    | set p vs =>
      cases w with
      | set q ws =>
        exact then_lt_trans (fun _ _ => compare_setOrdering_eq) (compare_setOrdering_lt_trans o p q)
          (compareAll_lt_trans us vs ws) h h'
      | _ => cases hw
    | _ => cases hv
  | map es, v, w => fun h h' => lt_trans_of_rank h h' fun hv hw => by
    cases v with
    | map fs =>
      cases w with
      | map gs => exact compareEntries_lt_trans es fs gs h h'
      | _ => cases hw
    | _ => cases hv

theorem compareAll_lt_trans : ∀ us vs ws : List Value,
    compareAll us vs = .lt → compareAll vs ws = .lt → compareAll us ws = .lt
  | [], [], _ => nofun
  | [], _ :: _, [] => nofun
  | [], _ :: _, _ :: _ => fun _ _ => rfl
  | _ :: _, [], _ => nofun
  | _ :: _, _ :: _, [] => nofun
  | u :: us, v :: vs, w :: ws =>
    then_lt_trans compare_eq_eq (compare_lt_trans u v w) (compareAll_lt_trans us vs ws)

theorem compareField_lt_trans : ∀ e f g : String × Value,
    compareField e f = .lt → compareField f g = .lt → compareField e g = .lt
  | (_, u), (_, v), (_, w) =>
    then_lt_trans (fun _ _ => Std.LawfulEqOrd.compare_eq_iff_eq) Std.TransCmp.lt_trans (compare_lt_trans u v w)

theorem compareFields_lt_trans : ∀ es fs gs : List (String × Value),
    compareFields es fs = .lt → compareFields fs gs = .lt → compareFields es gs = .lt
  | [], [], _ => nofun
  | [], _ :: _, [] => nofun
  | [], _ :: _, _ :: _ => fun _ _ => rfl
  | _ :: _, [], _ => nofun
  | _ :: _, _ :: _, [] => nofun
  | e :: es, f :: fs, g :: gs =>
    then_lt_trans compareField_eq_eq (compareField_lt_trans e f g) (compareFields_lt_trans es fs gs)

theorem compareEntry_lt_trans : ∀ e f g : Value × Value,
    compareEntry e f = .lt → compareEntry f g = .lt → compareEntry e g = .lt
  | (k, u), (l, v), (m, w) =>
    then_lt_trans compare_eq_eq (compare_lt_trans k l m) (compare_lt_trans u v w)

theorem compareEntries_lt_trans : ∀ es fs gs : List (Value × Value),
    compareEntries es fs = .lt → compareEntries fs gs = .lt → compareEntries es gs = .lt
  | [], [], _ => nofun
  | [], _ :: _, [] => nofun
  | [], _ :: _, _ :: _ => fun _ _ => rfl
  | _ :: _, [], _ => nofun
  | _ :: _, _ :: _, [] => nofun
  | e :: es, f :: fs, g :: gs =>
    then_lt_trans compareEntry_eq_eq (compareEntry_lt_trans e f g) (compareEntries_lt_trans es fs gs)

end

instance : Std.TransOrd Value where
  isLE_trans {u v w} h h' := by
    rw [Ordering.isLE_iff_eq_lt_or_eq_eq] at h h' ⊢
    rcases h with h | h
    · rcases h' with h' | h'
      · exact .inl (compare_lt_trans u v w h h')
      · obtain rfl := Std.LawfulEqOrd.eq_of_compare h'
        exact .inl h
    · obtain rfl := Std.LawfulEqOrd.eq_of_compare h
      exact h'

/-- Values of any kinds are totally ordered: only equal values compare as equal, comparing the other way round gives the
reverse answer, and a value is at most what a value above it is at most. -/
theorem compare_total_order (a b c : Value) :
    (Ord.compare a b = .eq ↔ a = b) ∧ Ord.compare b a = (Ord.compare a b).swap ∧
      ((Ord.compare a b).isLE → (Ord.compare b c).isLE → (Ord.compare a c).isLE) :=
  ⟨Std.LawfulEqOrd.compare_eq_iff_eq, Std.OrientedOrd.eq_swap, Std.TransOrd.isLE_trans⟩

end Aggregate.Value
