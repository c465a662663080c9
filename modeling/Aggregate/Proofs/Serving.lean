import Mathlib
import Aggregate.Proofs.Keys

/-!
# Stores that serve any requests

What holds of a store whatever it is asked to carry out, in any order and with any outcome.

- `Store.unchanged_of_error`: an action that fails changes nothing;
- `Store.search`: the search for an identifier, one number in each round; `Store.search_of_taken` says where it stops;
- `Store.room_of_length`: the counter has room for the search where more numbers are left than the type has rows;
- `Store.Serves`: any actions are carried out, with the identifiers made up on the way;
- `Store.allocate_exact`: the identifier made up is the first one from the counter on that no row of the type has, found
  after at most one round more than the type has rows; and no identifier is made up twice.
-/

namespace Aggregate

namespace Store

/-! ## Failures -/

/-- An action that fails leaves the store as it was, with its rows and its counter, and puts nothing on record. -/
theorem unchanged_of_error (w : Workspace) (a : Action) (executed : List Action) (s : Store) (e : StoreError)
    (h : (run w a executed s).1 = .error e) :
    (run w a executed s).2 = s ∧ executor w a executed s = ⟨.error e.message, [], s⟩ := by
  have hstate : (run w a executed s).2 = s := eq_of_fails ⟨⟨e, h⟩, rfl⟩
  refine ⟨hstate, ?_⟩
  unfold executor
  rcases hrun : run w a executed s with ⟨x, s'⟩
  rw [hrun] at h hstate
  subst h hstate
  rfl

/-- A tag with the identifier of another one is refused. -/
theorem unchanged_of_error_tag :
    (run Shop.tags (.insertRoot "Tag" (.root 0) none) [] Shop.tagged).1 = .error (.duplicateKey (.int 1) "Tag") ∧
      (run Shop.tags (.insertRoot "Tag" (.root 0) none) [] Shop.tagged).2 = Shop.tagged ∧
      executor Shop.tags (.insertRoot "Tag" (.root 0) none) [] Shop.tagged =
        ⟨.error (StoreError.duplicateKey (.int 1) "Tag").message, [], Shop.tagged⟩ := by
  have h : (run Shop.tags (.insertRoot "Tag" (.root 0) none) [] Shop.tagged).1 = .error (.duplicateKey (.int 1) "Tag") := by
    decide +kernel
  exact ⟨h, unchanged_of_error _ _ _ _ _ h⟩

/-! ## The search for an identifier -/

/-- Searches for an identifier in so many rounds at most: each round tries the number that the counter is at and moves
the counter past it. -/
def search (type : String) : (rounds : Nat) → Store → Option (Value × Store)
  | 0, _ => none
  | rounds + 1, s =>
    let next := { s with nextId := s.nextId + 1 }
    match next.find? type (.int s.nextId) with
    | none => some (.int s.nextId, next)
    | some _ => search type rounds next

section FirstFree

variable {taken : List Value} {next m j : Int64}

theorem toInt_add_one (h : next < m) : (next + 1).toInt = next.toInt + 1 := by
  have hlow := next.le_toInt
  have hhigh := m.toInt_lt
  have hlt := Int64.lt_iff_toInt_lt.1 h
  rw [Int64.toInt_add, Int64.toInt_one, Int.bmod_eq_of_le (by omega) (by omega)]

/-- The counter passes over no more numbers than are taken. -/
theorem toInt_firstFree (hle : next ≤ m) (hfree : .int m ∉ taken) :
    ∃ k ≤ taken.length, (firstFree taken next).toInt = next.toInt + k := by
  induction taken, next using firstFree.induct with
  | case1 taken next h ih =>
    have hne : next ≠ m := by
      rintro rfl
      exact hfree h
    have hlt := length_without_lt h
    obtain ⟨k, hk, hfirst⟩ := ih (by grind) fun hin => hfree (List.mem_of_mem_filter hin)
    rw [firstFree, if_pos h, hfirst, toInt_add_one (m := m) (by grind)]
    exact ⟨k + 1, by omega, by push_cast; omega⟩
  | case2 taken next h =>
    rw [firstFree, if_neg h]
    exact ⟨0, Nat.zero_le _, by simp⟩

/-- The counter passes only over numbers that are taken. -/
theorem mem_of_lt_firstFree (hle : next ≤ j) (hlt : j < firstFree taken next) : .int j ∈ taken := by
  induction taken, next using firstFree.induct with
  | case1 taken next h ih =>
    rw [firstFree, if_pos h] at hlt
    by_cases hj : j = next
    · exact hj ▸ h
    · exact List.mem_of_mem_filter (ih (by grind) hlt)
  | case2 taken next h =>
    rw [firstFree, if_neg h] at hlt
    grind

end FirstFree

variable {w : Workspace} {a : Action} {executed : List Action} {s s' : Store} {id? : Option Value} {type : String}

theorem int_mem_ids {m : Int64} : .int m ∈ (s.rowsOf type).map (·.id) ↔ s.find? type (.int m) ≠ none := by
  simp [find?]

/-- The rows found do not depend on the counter. -/
theorem find?_withNextId (s : Store) (n : Int64) (id : Value) :
    Store.find? { s with nextId := n } type id = s.find? type id :=
  rfl

/-- With numbers that are taken up to one that is not, the search stops there, if it has the rounds. -/
theorem search_of_taken {id : Int64} {k rounds : Nat} (hid : id.toInt = s.nextId.toInt + k) (hk : k < rounds)
    (hfree : s.find? type (.int id) = none)
    (htaken : ∀ m, s.nextId ≤ m → m < id → s.find? type (.int m) ≠ none) :
    search type rounds s = some (.int id, { s with nextId := id + 1 }) := by
  obtain ⟨rounds, rfl⟩ := Nat.exists_eq_add_of_lt hk
  clear hk
  induction k generalizing s with
  | zero =>
    obtain rfl : id = s.nextId := Int64.toInt_inj.1 (by simpa using hid)
    simp only [search, find?_withNextId, hfree]
  | succ k ih =>
    have hlt : s.nextId < id := Int64.lt_iff_toInt_lt.2 (by omega)
    have hstep := toInt_add_one hlt
    obtain ⟨r, hr⟩ := Option.ne_none_iff_exists'.1 (htaken s.nextId (Int64.le_refl _) hlt)
    rw [show k + 1 + rounds + 1 = k + rounds + 1 + 1 by omega, search]
    simp only [find?_withNextId, hr]
    have hle : s.nextId ≤ s.nextId + 1 := Int64.le_iff_toInt_le.2 (by omega)
    exact ih (by rw [hid, hstep]; push_cast; omega) hfree fun m hm => htaken m (Int64.le_trans hle hm)

/-- The counter has room where there are more numbers left than rows of the type. -/
theorem room_of_length (h : s.nextId.toInt + (s.rowsOf type).length < Int64.maxValue.toInt) : s.Room type := by
  let number (k : Nat) : Int64 := .ofInt (s.nextId.toInt + k)
  let ids := (s.rowsOf type).map (·.id)
  have hlow := s.nextId.le_toInt
  have hmax : Int64.maxValue.toInt = 2 ^ 63 - 1 := by decide
  have hsize : (Int64.size : Int) = 2 ^ 64 := by decide
  have htoInt {k : Nat} (hk : k ≤ (s.rowsOf type).length) : (number k).toInt = s.nextId.toInt + k := by
    rw [Int64.toInt_ofInt, Int.bmod_eq_of_le (by omega) (by omega)]
  -- more numbers than rows: one of them is no identifier
  obtain ⟨k, hk, hfree⟩ : ∃ k ≤ (s.rowsOf type).length, .int (number k) ∉ ids := by
    by_contra! hall
    have hnodup : ((List.range (ids.length + 1)).map fun k => Value.int (number k)).Nodup := by
      refine List.Nodup.map_on (fun j hj k hk hjk => ?_) List.nodup_range
      simp only [List.mem_range, ids, List.length_map] at hj hk
      have := congrArg Int64.toInt (Value.int.inj hjk)
      rw [htoInt (by omega), htoInt (by omega)] at this
      omega
    have hsub : ((List.range (ids.length + 1)).map fun k => Value.int (number k)) ⊆ ids := by
      intro v hv
      obtain ⟨k, hk, rfl⟩ := List.mem_map.1 hv
      simp only [List.mem_range, ids, List.length_map] at hk
      exact hall k (by omega)
    have := (hnodup.subperm hsub).length_le
    simp at this
  refine ⟨number k, Int64.le_iff_toInt_le.2 (by rw [htoInt hk]; omega),
    Int64.lt_iff_toInt_lt.2 (by rw [htoInt hk]; omega), fun r hr hid => hfree ?_⟩
  exact List.mem_map.2 ⟨r, hr, hid⟩

/-- The identifier made up, where there is one before the largest number. -/
theorem allocate_of_room (hroom : s.Room type) :
    ∃ (id : Int64) (k : Nat), allocate type s = (.int id, { s with nextId := id + 1 }) ∧ id < Int64.maxValue ∧
      id.toInt = s.nextId.toInt + k ∧ k ≤ (s.rowsOf type).length ∧ s.find? type (.int id) = none ∧
      ∀ m, s.nextId ≤ m → m < id → s.find? type (.int m) ≠ none := by
  obtain ⟨m, hle, hmax, hfree⟩ := hroom
  have hm : .int m ∉ (s.rowsOf type).map (·.id) := by
    intro hin
    obtain ⟨r, hr, hid⟩ := List.mem_map.1 hin
    exact hfree r hr hid
  obtain ⟨-, hend, hnot⟩ := firstFree_of_free hle hm
  obtain ⟨k, hk, hid⟩ := toInt_firstFree hle hm
  refine ⟨_, k, rfl, by grind, hid, by simpa using hk, ?_, fun j hj hlt => ?_⟩
  · simpa using mt int_mem_ids.2 hnot
  · exact int_mem_ids.1 (mem_of_lt_firstFree hj hlt)

/-! ## Stores that serve requests -/

/-- The identifier that an answer of a store has. -/
def made : Except StoreError (Option Value) → List Value
  | .ok (some id) => [id]
  | _ => []

/-- Any actions are carried out on a store, each with any actions before it and with any outcome, until it is another
store; the identifiers were made up on the way, in this order. The counter had room for each. -/
inductive Serves : Store → List Value → Store → Prop
  | done {s : Store} : Serves s [] s
  | run (w : Workspace) (a : Action) (executed : List Action) {s s' : Store} {ids : List Value} :
      (∀ id s₁, (Store.run w a executed).Runs s (some id) s₁ → s.Room a.type) →
      Serves (Store.run w a executed s).2 ids s' → Serves s (made (Store.run w a executed s).1 ++ ids) s'

/-- What an action does to the counter: it stays, or it comes to stand just after the identifier made up. -/
theorem nextId_of_runs_prepare {p : Prepared} (h : (prepare w a).Runs s p s') :
    p.generated = none ∧ s'.nextId = s.nextId ∨
      p.generated = some (allocate a.type s).1 ∧ s'.nextId = (allocate a.type s).2.nextId := by
  obtain ⟨v, name, -, -, h⟩ := runs_prepare_iff.1 h
  cases h with
  | made _ hid =>
    subst hid
    exact .inr ⟨rfl, rfl⟩
  | given _ _ _ => exact .inl ⟨rfl, rfl⟩

theorem nextId_of_runs (h : (run w a executed).Runs s id? s') :
    id? = none ∧ s'.nextId = s.nextId ∨ id? = some (allocate a.type s).1 ∧ s'.nextId = (allocate a.type s).2.nextId := by
  cases a with
  | insertRoot type node generated =>
    obtain ⟨p, s₁, hprepare, rfl, rfl⟩ := runs_insertRoot_iff.1 h
    have hcounter := nextId_of_runs_prepare hprepare
    exact hcounter
  | updateRoot type node =>
    obtain ⟨id, v, -, -, -, rfl, rfl⟩ := runs_updateRoot_iff.1 h
    exact .inl ⟨rfl, rfl⟩
  | insert type node dependsOn columns generated =>
    obtain ⟨dependency, parentId, rootId, p, s₁, -, -, -, hprepare, rfl, rfl⟩ := runs_insert_iff.1 h
    have hcounter := nextId_of_runs_prepare hprepare
    exact hcounter
  | delete type rootId path =>
    obtain ⟨hid, rfl⟩ := h
    cases hid
    exact .inl ⟨rfl, rfl⟩

/-- One action: no identifier is made up and the counter stays, or the counter moves past the one made up. -/
theorem made_run (hroom : ∀ id s₁, (run w a executed).Runs s (some id) s₁ → s.Room a.type) :
    made (run w a executed s).1 = [] ∧ (run w a executed s).2.nextId = s.nextId ∨
      ∃ id : Int64, made (run w a executed s).1 = [.int id] ∧ s.nextId ≤ id ∧ id < (run w a executed s).2.nextId := by
  cases hanswer : (run w a executed s).1 with
  | error e => exact .inl ⟨rfl, by rw [eq_of_fails ⟨⟨e, hanswer⟩, rfl⟩]⟩
  | ok id? =>
    have hrun : (run w a executed).Runs s id? (run w a executed s).2 := ⟨hanswer, rfl⟩
    rcases nextId_of_runs hrun with ⟨rfl, hnext⟩ | ⟨rfl, hnext⟩
    · exact .inl ⟨rfl, hnext⟩
    · obtain ⟨id, k, halloc, hmax, hid, -⟩ := allocate_of_room (hroom _ _ hrun)
      rw [halloc] at hnext ⊢
      refine .inr ⟨id, rfl, Int64.le_iff_toInt_le.2 (by omega), ?_⟩
      rw [hnext]
      exact Int64.lt_iff_toInt_lt.2 (by rw [toInt_add_one hmax]; omega)

/-- Identifiers are made up in ascending order, all from where the counter was on to where it is. -/
theorem ascending_of_serves {ids : List Value} (h : s.Serves ids s') :
    s.nextId ≤ s'.nextId ∧ ∃ ns : List Int64, ids = ns.map .int ∧ ns.Pairwise (· < ·) ∧
      ∀ n ∈ ns, s.nextId ≤ n ∧ n < s'.nextId := by
  induction h with
  | done => exact ⟨Int64.le_refl _, [], rfl, .nil, nofun⟩
  | run w a executed hroom _ ih =>
    obtain ⟨hle, ns, rfl, hns, hbounds⟩ := ih
    rcases made_run hroom with ⟨hmade, hnext⟩ | ⟨id, hmade, hid, hnext⟩
    · rw [hmade, ← hnext]
      exact ⟨hle, ns, rfl, hns, hbounds⟩
    · have hlater (n : Int64) (hn : n ∈ ns) : id < n := Int64.lt_of_lt_of_le hnext (hbounds n hn).1
      refine ⟨by grind, id :: ns, by rw [hmade]; rfl, List.pairwise_cons.2 ⟨hlater, hns⟩, ?_⟩
      refine List.forall_mem_cons.2 ⟨⟨hid, by grind⟩, fun n hn => ⟨?_, (hbounds n hn).2⟩⟩
      have := hlater n hn
      grind

/-- The identifier made up for an entity type is the first number from the counter on that no row of the type has, and
the counter stops just after it. The search for it ends within one round more than the type has rows. Whatever is
carried out on a store, the identifiers that it makes up ascend over all types, so that none is made up twice. This
takes that the counter finds a number before the largest one. -/
theorem allocate_exact (s : Store) :
    (∀ type, s.Room type →
      ∃ id, allocate type s = (.int id, { s with nextId := id + 1 }) ∧ (id + 1).toInt = id.toInt + 1 ∧
        s.nextId ≤ id ∧ s.find? type (.int id) = none ∧
        (∀ m, s.nextId ≤ m → m < id → s.find? type (.int m) ≠ none) ∧
        search type ((s.rowsOf type).length + 1) s = some (allocate type s)) ∧
      ∀ ids s', s.Serves ids s' → ∃ ns : List Int64, ids = ns.map .int ∧ ns.Pairwise (· < ·) ∧
        ∀ n ∈ ns, s.nextId ≤ n ∧ n < s'.nextId := by
  refine ⟨fun type hroom => ?_, fun ids s' h => (ascending_of_serves h).2⟩
  obtain ⟨id, k, halloc, hmax, hid, hk, hfree, htaken⟩ := allocate_of_room hroom
  refine ⟨id, halloc, toInt_add_one hmax, Int64.le_iff_toInt_le.2 (by omega), hfree, htaken, ?_⟩
  rw [halloc]
  exact search_of_taken hid (by omega) hfree htaken

end Store

namespace Shop

/-- A store on which the insert of the first tag was carried out, which has the identifier that the counter is at. -/
def stocked : Store := (Store.run tags (.insertRoot "Tag" (.root 0) none) [] (.empty entities)).2

/-- The second tag is inserted, deleted and inserted again. -/
theorem serves_stocked : ∃ s, stocked.Serves [.int 2, .int 3] s := by
  have hserves := Store.Serves.run tags (.insertRoot "Tag" (.root 1) none) [] (s := stocked)
    (fun _ _ _ => ⟨2, by decide +kernel⟩) (.run tags (.delete "Tag" (.int 2) .root) [] (fun _ _ h => nomatch h.1)
      (.run tags (.insertRoot "Tag" (.root 1) none) [] (fun _ _ _ => ⟨3, by decide +kernel⟩) .done))
  refine ⟨_, Eq.mp (congrArg (stocked.Serves · _) ?_) hserves⟩
  decide +kernel

end Shop

namespace Store

/-- The counter passes over the identifier of the first tag, and the second one gets another identifier each time. -/
theorem allocate_exact_tag :
    Shop.stocked.Room "Tag" ∧
      (∃ id, allocate "Tag" Shop.stocked = (.int id, { Shop.stocked with nextId := id + 1 }) ∧
        (id + 1).toInt = id.toInt + 1 ∧ Shop.stocked.nextId ≤ id ∧ Shop.stocked.find? "Tag" (.int id) = none ∧
        (∀ m, Shop.stocked.nextId ≤ m → m < id → Shop.stocked.find? "Tag" (.int m) ≠ none) ∧
        search "Tag" ((Shop.stocked.rowsOf "Tag").length + 1) Shop.stocked = some (allocate "Tag" Shop.stocked)) ∧
      ∃ s, Shop.stocked.Serves [.int 2, .int 3] s ∧ ∃ ns : List Int64, [.int 2, .int 3] = ns.map Value.int ∧
        ns.Pairwise (· < ·) ∧ ∀ n ∈ ns, Shop.stocked.nextId ≤ n ∧ n < s.nextId := by
  have hroom : Shop.stocked.Room "Tag" := room_of_length (by decide +kernel)
  obtain ⟨s, hserves⟩ := Shop.serves_stocked
  exact ⟨hroom, (allocate_exact Shop.stocked).1 "Tag" hroom, s, hserves,
    (allocate_exact Shop.stocked).2 _ s hserves⟩

end Store

end Aggregate
