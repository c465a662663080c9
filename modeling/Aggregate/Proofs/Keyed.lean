import Mathlib
import Aggregate.Proofs.Order
import Aggregate.Value.Fields

/-!
# Keyed lists in order

- `Keyed.Ascending`: the keys come in ascending order, each once;
- `Keyed.insert_of_split`: binding a key that is present rewrites its entry in place;
- `Keyed.ascending_insert`: binding keeps the order;
- `Keyed.ofList_eq_self`: entries in order are bound as they come.
-/

namespace Aggregate.Keyed

variable {κ α : Type}

/-- What is found after the values of one key were changed. -/
theorem lookup_map_at [DecidableEq κ] (f : α → α) (key other : κ) (entries : List (κ × α)) :
    (entries.map fun e => if e.1 = key then (e.1, f e.2) else e).lookup other =
      if other = key then (entries.lookup other).map f else entries.lookup other := by
  induction entries with
  | nil => simp
  | cons entry rest ih =>
    obtain ⟨k, v⟩ := entry
    by_cases hk : other = k
    · subst hk
      by_cases ho : other = key <;> simp [ho]
    · by_cases hkk : k = key
      · subst hkk
        simp [List.lookup_cons, beq_false_of_ne hk, ih, hk]
      · simp [List.lookup_cons, beq_false_of_ne hk, ih, hkk]

variable [Ord κ] [Std.LawfulEqOrd κ]

omit [Std.LawfulEqOrd κ] in
/-- Binding a key and changing all values commute. -/
theorem insert_map {β : Type} (f : α → β) (key : κ) (value : α) (entries : List (κ × α)) :
    (insert key value entries).map (fun e => (e.1, f e.2)) = insert key (f value) (entries.map fun e => (e.1, f e.2)) := by
  induction entries with
  | nil => rfl
  | cons entry rest ih =>
    obtain ⟨k, v⟩ := entry
    simp only [insert, List.map_cons]
    split <;> simp [ih]

/-- The keys come in ascending order, each once. -/
def Ascending (entries : List (κ × α)) : Prop :=
  entries.Pairwise fun a b => compare a.1 b.1 = .lt

theorem mem_insert {key : κ} {value : α} {entries : List (κ × α)} {e : κ × α} (h : e ∈ insert key value entries) :
    e ∈ entries ∨ e = (key, value) := by
  induction entries with
  | nil => exact .inr (List.mem_singleton.1 h)
  | cons entry rest ih =>
    obtain ⟨k, v⟩ := entry
    simp only [insert] at h
    split at h
    · rcases List.mem_cons.1 h with rfl | h
      · exact .inr rfl
      · exact .inl h
    · rename_i hk
      rcases List.mem_cons.1 h with rfl | h
      · exact .inr (by rw [Std.LawfulEqOrd.eq_of_compare hk])
      · exact .inl (List.mem_cons_of_mem _ h)
    · rcases List.mem_cons.1 h with rfl | h
      · exact .inl List.mem_cons_self
      · exact (ih h).imp_left (List.mem_cons_of_mem _)

theorem lookup_of_mem [DecidableEq κ] {key : κ} {value : α} {entries : List (κ × α)} (ha : Ascending entries)
    (h : (key, value) ∈ entries) : entries.lookup key = some value := by
  induction entries with
  | nil => cases h
  | cons entry rest ih =>
    obtain ⟨k, v⟩ := entry
    rw [Ascending, List.pairwise_cons] at ha
    rcases List.mem_cons.1 h with he | hr
    · cases he
      simp
    · have hne : key ≠ k := by
        rintro rfl
        have hlt := ha.1 _ hr
        rw [Std.compare_self] at hlt
        cases hlt
      rw [List.lookup_cons, beq_false_of_ne hne]
      exact ih ha.2 hr

/-- Binding a key that is present rewrites its entry in place. -/
theorem insert_of_split [Std.OrientedOrd κ] {key : κ} {value : α} {pre post : List (κ × α)}
    (ha : Ascending (pre ++ (key, value) :: post)) (x : α) :
    insert key x (pre ++ (key, value) :: post) = pre ++ (key, x) :: post := by
  induction pre with
  | nil => simp [insert]
  | cons entry pre ih =>
    obtain ⟨k, v⟩ := entry
    rw [List.cons_append, Ascending, List.pairwise_cons] at ha
    have hlt : compare k key = .lt := ha.1 (key, value) (by simp)
    have hgt : compare key k = .gt := by rw [Std.OrientedOrd.eq_swap (a := key), hlt]; rfl
    simp only [List.cons_append, insert, hgt, ih ha.2]

/-- Binding a key that is present changes the value of the entry with this key. -/
theorem insert_eq_map [DecidableEq κ] [Std.OrientedOrd κ] {key : κ} {value : α} {entries : List (κ × α)}
    (ha : Ascending entries) (h : entries.lookup key = some value) (x : α) :
    insert key x entries = entries.map fun e => if e.1 = key then (e.1, x) else e := by
  obtain ⟨pre, post, rfl, -⟩ := List.lookup_eq_some_iff.1 h
  have hne {e : κ × α} (he : e ∈ pre ∨ e ∈ post) : e.1 ≠ key := by
    rintro rfl
    have hp := List.pairwise_append.1 ha
    have hlt : compare e.1 e.1 = .lt := by
      rcases he with he | he
      · exact hp.2.2 e he (e.1, value) List.mem_cons_self
      · exact (List.pairwise_cons.1 hp.2.1).1 e he
    rw [Std.compare_self] at hlt
    cases hlt
  have hkeep {es : List (κ × α)} (hes : ∀ e ∈ es, e.1 ≠ key) :
      es.map (fun e => if e.1 = key then (e.1, x) else e) = es := by
    rw [List.map_congr_left fun e he => if_neg (hes e he), List.map_id']
  rw [insert_of_split ha, List.map_append, List.map_cons, if_pos rfl, hkeep fun e he => hne (.inl he),
    hkeep fun e he => hne (.inr he)]

/-- Binding a key that is present keeps the keys. -/
theorem keys_insert_of_lookup [DecidableEq κ] [Std.OrientedOrd κ] {key : κ} {value : α} {entries : List (κ × α)}
    (ha : Ascending entries) (h : entries.lookup key = some value) (x : α) :
    (insert key x entries).map (·.1) = entries.map (·.1) := by
  obtain ⟨pre, post, rfl, -⟩ := List.lookup_eq_some_iff.1 h
  rw [insert_of_split ha]
  simp

theorem ascending_insert_of_lookup [DecidableEq κ] [Std.OrientedOrd κ] {key : κ} {value : α}
    {entries : List (κ × α)} (ha : Ascending entries) (h : entries.lookup key = some value) (x : α) :
    Ascending (insert key x entries) := by
  rw [Ascending, ← List.pairwise_map (f := Prod.fst) (R := fun a b => compare a b = .lt)] at ha ⊢
  rwa [keys_insert_of_lookup (List.pairwise_map.1 ha) h]

theorem ascending_insert [Std.TransOrd κ] {entries : List (κ × α)} (ha : Ascending entries) (key : κ) (x : α) :
    Ascending (insert key x entries) := by
  induction entries with
  | nil => exact List.pairwise_singleton _ _
  | cons entry rest ih =>
    obtain ⟨k, v⟩ := entry
    rw [Ascending, List.pairwise_cons] at ha
    simp only [insert]
    split
    · rename_i hlt
      refine List.pairwise_cons.2 ⟨fun e he => ?_, List.pairwise_cons.2 ha⟩
      rcases List.mem_cons.1 he with rfl | he
      · exact hlt
      · exact Std.TransCmp.lt_trans hlt (ha.1 e he)
    · exact List.pairwise_cons.2 ha
    · rename_i hgt
      refine List.pairwise_cons.2 ⟨fun e he => ?_, ih ha.2⟩
      have hk : compare k key = .lt := by rw [Std.OrientedOrd.eq_swap (a := k), hgt]; rfl
      rcases mem_insert he with he | rfl
      · exact ha.1 e he
      · exact hk

/-! ## Binding entries that are in order -/

omit [Std.LawfulEqOrd κ] in
/-- A key behind all others is bound at the end. -/
theorem insert_eq_concat [Std.OrientedOrd κ] {key : κ} {x : α} {entries : List (κ × α)}
    (h : ∀ e ∈ entries, compare e.1 key = .lt) : insert key x entries = entries ++ [(key, x)] := by
  induction entries with
  | nil => rfl
  | cons entry rest ih =>
    obtain ⟨k, v⟩ := entry
    obtain ⟨hlt, hrest⟩ := List.forall_mem_cons.1 h
    have hgt : compare key k = .gt := by rw [Std.OrientedOrd.eq_swap (a := key), hlt]; rfl
    rw [insert, hgt, List.cons_append, ← ih hrest]

omit [Std.LawfulEqOrd κ] in
theorem ofList_eq_self [Std.OrientedOrd κ] {entries : List (κ × α)} (ha : Ascending entries) :
    ofList entries = entries := by
  -- by induction on the entries read so far
  induction entries using List.reverseRecOn with
  | nil => rfl
  | append_singleton entries e ih =>
    obtain ⟨hentries, -, hlast⟩ := List.pairwise_append.1 ha
    have hbound : ofList entries = entries := ih hentries
    rw [ofList, List.foldl_append, ← ofList, hbound]
    exact insert_eq_concat fun e' he' => hlast e' he' e List.mem_cons_self

end Aggregate.Keyed
