import Mathlib
import Aggregate.Proofs.Order
import Aggregate.Value.Set

/-!
# Sets built by insertion

What a set holds after values were inserted into the empty set, one after another.

- `ValueSet.bisect` searches the place of a value by halving; `ValueSet.bisect_eq` says what it finds in an ascending
  list, which is where `ValueSet.place` puts the value (`ValueSet.place_eq_insertIdx`);
- `ValueSet.Sorts`: a list in strictly ascending order; `ValueSet.Sorts.place` keeps it;
- `ValueSet.ofList_concat`: one more insertion; the lemmas on `ValueSet.ofList` are by induction on it;
- `ValueSet.ofList_exact`: the elements are the values inserted, each once, in order of first occurrence or in ascending
  order, so that sorted sets do not depend on the order of insertion.
-/

namespace Aggregate.ValueSet

/-! ## Places in ascending lists -/

/-- The values come in strictly ascending order. -/
def Sorts (vs : List Value) : Prop := vs.Pairwise fun a b => compare a b = .lt

/-- The first position from `low` to `high` whose value is not smaller than `v`, searched by halving. -/
def bisect (v : Value) (vs : List Value) (low high : Nat) : Nat :=
  if low < high then
    let middle := (low + high) / 2
    if vs[middle]?.any fun w => compare w v = .lt then bisect v vs (middle + 1) high else bisect v vs low middle
  else low
termination_by high - low

/-- How many values come before the first one that is not smaller than `v`. -/
def rankOf (v : Value) (vs : List Value) : Nat := (vs.takeWhile fun w => compare w v = .lt).length

variable {v w : Value} {vs : List Value}

theorem rankOf_le_length : rankOf v vs ≤ vs.length :=
  (List.takeWhile_sublist _).length_le

theorem rankOf_cons_of_lt (h : compare w v = .lt) : rankOf v (w :: vs) = rankOf v vs + 1 := by
  simp [rankOf, h]

theorem rankOf_cons_of_not_lt (h : compare w v ≠ .lt) : rankOf v (w :: vs) = 0 := by
  simp [rankOf, h]

/-- In an ascending list the smaller values are those at the first positions. -/
theorem Sorts.getElem_lt_iff (h : Sorts vs) {i : Nat} (hi : i < vs.length) :
    compare vs[i] v = .lt ↔ i < rankOf v vs := by
  induction vs generalizing i with
  | nil => cases hi
  | cons w rest ih =>
    obtain ⟨hfirst, hrest⟩ := List.pairwise_cons.1 h
    by_cases hw : compare w v = .lt
    · rw [rankOf_cons_of_lt hw]
      cases i with
      | zero => simp [hw]
      | succ i => simpa using ih hrest (Nat.lt_of_succ_lt_succ hi)
    · rw [rankOf_cons_of_not_lt hw]
      refine ⟨fun hlt => ?_, fun hlt => absurd hlt (Nat.not_lt_zero i)⟩
      cases i with
      | zero => exact absurd hlt hw
      | succ i =>
        -- what comes after a value that is not smaller is not smaller
        have hi' : i < rest.length := Nat.lt_of_succ_lt_succ hi
        have hlater : compare w rest[i] = .lt := hfirst _ (List.getElem_mem hi')
        exact absurd (Std.TransCmp.lt_trans hlater hlt) hw

/-- Halving finds the place of a value in an ascending list. -/
theorem bisect_eq (h : Sorts vs) {low high : Nat} (hlow : low ≤ rankOf v vs) (hhigh : rankOf v vs ≤ high)
    (hlength : high ≤ vs.length) : bisect v vs low high = rankOf v vs := by
  fun_induction bisect v vs low high with
  | case1 low high hlt middle hany ih =>
    have hmiddle : middle < vs.length := by omega
    have hsmaller : compare vs[middle] v = .lt := by simpa [List.getElem?_eq_getElem hmiddle] using hany
    exact ih ((h.getElem_lt_iff hmiddle).1 hsmaller) hhigh hlength
  | case2 low high hlt middle hany ih =>
    have hmiddle : middle < vs.length := by omega
    have hsmaller : compare vs[middle] v ≠ .lt := by simpa [List.getElem?_eq_getElem hmiddle] using hany
    exact ih hlow (Nat.le_of_not_lt fun hin => hsmaller ((h.getElem_lt_iff hmiddle).2 hin)) (by omega)
  | case3 low high hge => omega

theorem place_eq_insertIdx (v : Value) (vs : List Value) : place v vs = vs.insertIdx (rankOf v vs) v := by
  induction vs with
  | nil => rfl
  | cons w rest ih =>
    by_cases hw : compare w v = .lt
    · rw [place, if_pos hw, rankOf_cons_of_lt hw, List.insertIdx_succ_cons, ih]
    · rw [place, if_neg hw, rankOf_cons_of_not_lt hw, List.insertIdx_zero]

theorem place_perm (v : Value) (vs : List Value) : (place v vs).Perm (v :: vs) := by
  rw [place_eq_insertIdx]
  exact List.perm_insertIdx v vs rankOf_le_length

/-- A new value put in its place keeps the list ascending. -/
theorem Sorts.place (h : Sorts vs) (hv : v ∉ vs) : Sorts (place v vs) := by
  induction vs with
  | nil => exact List.pairwise_singleton _ v
  | cons w rest ih =>
    obtain ⟨hfirst, hrest⟩ := List.pairwise_cons.1 h
    obtain ⟨hne, hnot⟩ := List.ne_and_not_mem_of_not_mem_cons hv
    rw [ValueSet.place]
    split
    · rename_i hw
      refine List.pairwise_cons.2 ⟨fun x hx => ?_, ih hrest hnot⟩
      rcases List.mem_cons.1 ((place_perm v rest).mem_iff.1 hx) with rfl | hx
      · exact hw
      · exact hfirst x hx
    · rename_i hw
      have hlt : compare v w = .lt := by
        rw [Std.OrientedOrd.eq_swap (a := v)]
        cases hc : compare w v with
        | lt => exact absurd hc hw
        | eq => exact absurd (Std.LawfulEqOrd.eq_of_compare hc).symm hne
        | gt => rfl
      refine List.pairwise_cons.2 ⟨fun x hx => ?_, h⟩
      rcases List.mem_cons.1 hx with rfl | hx
      · exact hlt
      · exact Std.TransCmp.lt_trans hlt (hfirst x hx)

/-- Ascending lists of the same values are equal. -/
theorem Sorts.eq_of_mem_iff {ws : List Value} (h : Sorts vs) (h' : Sorts ws) (hmem : ∀ v, v ∈ vs ↔ v ∈ ws) :
    vs = ws := by
  have hirrefl (us : List Value) (hus : Sorts us) : us.Nodup :=
    hus.imp fun {a b} hlt heq => by
      rw [heq, Std.compare_self] at hlt
      cases hlt
  have hperm := (List.perm_ext_iff_of_nodup (hirrefl vs h) (hirrefl ws h')).2 hmem
  refine hperm.eq_of_pairwise (fun a b _ _ hab hba => ?_) h h'
  rw [Std.OrientedOrd.eq_swap (a := a), hba] at hab
  cases hab

/-! ## One insertion -/

variable {s : ValueSet} {ordering : SetOrdering}

@[simp] theorem ordering_insert (s : ValueSet) (v : Value) : (s.insert v).ordering = s.ordering := by
  unfold insert
  split
  · split <;> rfl
  · rfl

theorem insert_of_mem (h : v ∈ s.elements) : s.insert v = s :=
  if_neg (by simp [admits, h])

theorem elements_insert_sorted (hs : s.ordering = .sorted) (h : v ∉ s.elements) :
    (s.insert v).elements = place v s.elements := by
  rw [insert, if_pos (by simp [admits, h]), hs]

theorem elements_insert_unsorted (hs : s.ordering ≠ .sorted) (h : v ∉ s.elements) :
    (s.insert v).elements = s.elements ++ [v] := by
  rw [insert, if_pos (by simp [admits, h])]
  split <;> simp_all

/-- A new value is one more element. -/
theorem insert_perm (h : v ∉ s.elements) : (s.insert v).elements.Perm (v :: s.elements) := by
  by_cases hs : s.ordering = .sorted
  · rw [elements_insert_sorted hs h]
    exact place_perm v s.elements
  · rw [elements_insert_unsorted hs h]
    exact List.perm_append_singleton v s.elements

theorem mem_insert : w ∈ (s.insert v).elements ↔ w = v ∨ w ∈ s.elements := by
  by_cases h : v ∈ s.elements
  · rw [insert_of_mem h]
    exact ⟨.inr, fun hw => hw.elim (fun heq => heq ▸ h) id⟩
  · rw [(insert_perm h).mem_iff, List.mem_cons]

theorem nodup_insert (hs : s.elements.Nodup) (v : Value) : (s.insert v).elements.Nodup := by
  by_cases h : v ∈ s.elements
  · rwa [insert_of_mem h]
  · exact (insert_perm h).nodup_iff.2 (List.nodup_cons.2 ⟨h, hs⟩)

/-- A set changes where a value is new to it. -/
theorem insert_eq_self_iff : s.insert v = s ↔ v ∈ s.elements := by
  refine ⟨fun h => ?_, insert_of_mem⟩
  rw [← h]
  exact mem_insert.2 (.inl rfl)

/-! ## Insertions one after another -/

theorem ofList_concat (ordering : SetOrdering) (vs : List Value) (v : Value) :
    ofList ordering (vs ++ [v]) = (ofList ordering vs).insert v := by
  rw [ofList, List.foldl_append]
  rfl

@[simp] theorem ordering_ofList (ordering : SetOrdering) (vs : List Value) :
    (ofList ordering vs).ordering = ordering := by
  induction vs using List.reverseRecOn with
  | nil => rfl
  | append_singleton vs v ih => rw [ofList_concat, ordering_insert, ih]

theorem mem_ofList : w ∈ (ofList ordering vs).elements ↔ w ∈ vs := by
  induction vs using List.reverseRecOn with
  | nil => simp [ofList, empty]
  | append_singleton vs v ih => rw [ofList_concat, mem_insert, ih, List.mem_append, List.mem_singleton, or_comm]

theorem nodup_ofList (ordering : SetOrdering) (vs : List Value) : (ofList ordering vs).elements.Nodup := by
  induction vs using List.reverseRecOn with
  | nil => exact List.nodup_nil
  | append_singleton vs v ih => rw [ofList_concat]; exact nodup_insert ih v

/-- A sorted set is in strictly ascending order. -/
theorem sorts_ofList (vs : List Value) : Sorts (ofList .sorted vs).elements := by
  induction vs using List.reverseRecOn with
  | nil => exact List.Pairwise.nil
  | append_singleton vs v ih =>
    rw [ofList_concat]
    by_cases h : v ∈ (ofList .sorted vs).elements
    · rwa [insert_of_mem h]
    · rw [elements_insert_sorted (ordering_ofList ..) h]
      exact ih.place h

/-- The other sets are in order of first occurrence. -/
theorem pairwise_ofList (hordering : ordering ≠ .sorted) (vs : List Value) :
    (ofList ordering vs).elements.Pairwise fun a b => vs.idxOf a < vs.idxOf b := by
  induction vs using List.reverseRecOn with
  | nil => exact List.Pairwise.nil
  | append_singleton vs v ih =>
    have hfirst (w : Value) (hw : w ∈ (ofList ordering vs).elements) : (vs ++ [v]).idxOf w = vs.idxOf w :=
      List.idxOf_append_of_mem (mem_ofList.1 hw)
    have hkept : (ofList ordering vs).elements.Pairwise fun a b => (vs ++ [v]).idxOf a < (vs ++ [v]).idxOf b :=
      ih.imp_of_mem fun ha hb hlt => by rwa [hfirst _ ha, hfirst _ hb]
    rw [ofList_concat]
    by_cases h : v ∈ (ofList ordering vs).elements
    · rwa [insert_of_mem h]
    · rw [elements_insert_unsorted (by rwa [ordering_ofList]) h]
      refine List.pairwise_append.2 ⟨hkept, List.pairwise_singleton _ v, fun w hw x hx => ?_⟩
      obtain rfl := List.mem_singleton.1 hx
      have hv : x ∉ vs := fun hin => h (mem_ofList.2 hin)
      rw [hfirst w hw, List.idxOf_append_of_notMem hv]
      exact Nat.lt_of_lt_of_le (List.idxOf_lt_length_of_mem (mem_ofList.1 hw)) (Nat.le_add_right ..)

/-- The set of some values, inserted one after another, holds these values, each once. One more value is new to it, and
changes it, if and only if it is none of them. A sorted set is in strictly ascending order, a new element goes where
halving finds its place, and values inserted in another order or more often make the same set. Other sets are in order of
first occurrence. -/
theorem ofList_exact (ordering : SetOrdering) (vs : List Value) :
    (ofList ordering vs).ordering = ordering ∧ (ofList ordering vs).elements.Nodup ∧
      (∀ v, v ∈ (ofList ordering vs).elements ↔ v ∈ vs) ∧
      (∀ v, ((ofList ordering vs).admits v = true ↔ v ∉ vs) ∧
        ((ofList ordering vs).insert v = ofList ordering vs ↔ v ∈ vs)) ∧
      (ordering ≠ .sorted → (ofList ordering vs).elements.Pairwise fun a b => vs.idxOf a < vs.idxOf b) ∧
      (ordering = .sorted → (ofList ordering vs).elements.Pairwise (fun a b => compare a b = .lt) ∧
        (∀ v, v ∉ vs → ((ofList ordering vs).insert v).elements = (ofList ordering vs).elements.insertIdx
          (bisect v (ofList ordering vs).elements 0 (ofList ordering vs).elements.length) v) ∧
        ∀ ws, (∀ v, v ∈ vs ↔ v ∈ ws) → ofList ordering vs = ofList ordering ws) := by
  refine ⟨ordering_ofList .., nodup_ofList .., fun v => mem_ofList, fun v => ⟨?_, ?_⟩,
    fun hordering => pairwise_ofList hordering vs, ?_⟩
  · rw [admits, decide_eq_true_iff, mem_ofList]
  · rw [insert_eq_self_iff, mem_ofList]
  · rintro rfl
    have hsorts := sorts_ofList vs
    refine ⟨hsorts, fun v hv => ?_, fun ws hmem => ?_⟩
    · rw [elements_insert_sorted (ordering_ofList ..) (mt mem_ofList.1 hv), place_eq_insertIdx,
        bisect_eq hsorts (Nat.zero_le _) rankOf_le_length le_rfl]
    · have helements : (ofList .sorted vs).elements = (ofList .sorted ws).elements :=
        hsorts.eq_of_mem_iff (sorts_ofList ws) fun v => by rw [mem_ofList, mem_ofList, hmem]
      calc ofList .sorted vs
          = ⟨(ofList .sorted vs).ordering, (ofList .sorted vs).elements⟩ := rfl
        _ = ⟨(ofList .sorted ws).ordering, (ofList .sorted ws).elements⟩ := by
          rw [helements, ordering_ofList, ordering_ofList]
        _ = ofList .sorted ws := rfl

end Aggregate.ValueSet
