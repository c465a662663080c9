import Mathlib
import Aggregate.Proofs.Execution
import Aggregate.Store.Basic

/-!
# Steps of a store

What the store does for one action, and what it takes.

- `Store.firstFree_not_mem`: an identifier made up is not taken;
- `Store.Preparing`: the two ways to prepare an entity;
- `Store.runs_prepare_iff`, `runs_insertRoot_iff`, `runs_updateRoot_iff`, `runs_insert_iff`: what each kind of step takes
  and what it leaves, with the parts that later modules need as `runs_prepare` and so on;
- `Store.prepare_of_duplicate`: an entity with the identifier of a row is refused;
- `Store.eq_of_fails`: a step that fails leaves the store as it was;
- `Store.executor_cases`: the store as an executor.
-/

namespace Aggregate

open ExceptT (Runs Fails runs_bind runs_pure runs_get runs_set runs_modify runs_except runs_state not_runs_throw
  fails_bind fails_throw fails_except not_fails_pure not_fails_get not_fails_set not_fails_modify not_fails_state
  bind_of_runs)

namespace Store

/-! ## Identifiers made up -/

theorem ofNat_injective {j k : Nat} (hj : j < 2 ^ 64) (hk : k < 2 ^ 64) (h : Int64.ofNat j = Int64.ofNat k) :
    j = k := by
  have h := congrArg (fun i : Int64 => i.toBitVec.toNat) h
  simp at h
  omega

/-- The number made up is the first one from `next` on that is not taken, or one that came up before. -/
theorem firstFree_spec (taken : List Value) (next : Int64) :
    ∃ k ≤ taken.length, firstFree taken next = next + .ofNat k ∧
      (.int (firstFree taken next) ∈ taken → ∃ j < k, next + Int64.ofNat k = next + .ofNat j) := by
  induction taken, next using firstFree.induct with
  | case1 taken next h ih =>
    obtain ⟨k, hk, hr, hmem⟩ := ih
    rw [firstFree, if_pos h]
    have hlt := length_without_lt h
    have hstep (j : Nat) : next + 1 + Int64.ofNat j = next + .ofNat (j + 1) := by
      rw [Int64.ofNat_add, Int64.add_assoc, Int64.add_comm 1]
      rfl
    refine ⟨k + 1, by omega, by rw [hr, hstep], fun hin => ?_⟩
    by_cases hnext : firstFree (without (.int next) taken) (next + 1) = next
    · exact ⟨0, by omega, by rw [← hstep, ← hr, hnext]; simp⟩
    · obtain ⟨j, hj, hjk⟩ := hmem (List.mem_filter.2 ⟨hin, by simpa using hnext⟩)
      exact ⟨j + 1, by omega, by rw [← hstep, ← hstep, hjk]⟩
  | case2 taken next h =>
    rw [firstFree, if_neg h]
    exact ⟨0, Nat.zero_le _, by simp, fun hin => absurd hin h⟩

/-- An identifier made up is not taken, unless there are as many as numbers. -/
theorem firstFree_not_mem {taken : List Value} (h : taken.length < 2 ^ 64) (next : Int64) :
    .int (firstFree taken next) ∉ taken := by
  intro hin
  obtain ⟨k, hk, -, hmem⟩ := firstFree_spec taken next
  obtain ⟨j, hj, hjk⟩ := hmem hin
  have := ofNat_injective (by omega) (by omega) ((Int64.add_right_inj _).1 hjk)
  omega

/-! ## What actions are about -/

section Read

variable {schema : Schema} {w : Workspace} {a : Action} {v id : Value} {name : String}

theorem valueOf_eq_ok : valueOf w a = .ok v ↔ ∃ node, a.address? = some node ∧ w.current node = .ok v := by
  unfold valueOf Action.value?
  cases a.address? with
  | none => simp
  | some node => cases h : w.current node <;> simp [h, Except.map]

theorem idPropertyOf_eq_ok : idPropertyOf schema a = .ok name ↔ schema.idProperty? a.type = some name := by
  simp only [idPropertyOf, Except.bind_eq_ok, Except.mapError_eq_ok, Schema.entity_eq_ok, EntityType.requiredId_eq_ok,
    Schema.idProperty?, Option.bind_eq_some_iff]

theorem identity_eq_ok (h : a.generatedId = none) :
    identity schema w a = .ok id ↔ ∃ node v name, a.address? = some node ∧ w.current node = .ok v ∧
      schema.idProperty? a.type = some name ∧ schema.read v name = .ok id := by
  unfold identity
  rw [h]
  simp only [Except.bind_eq_ok, Except.mapError_eq_ok, valueOf_eq_ok, idPropertyOf_eq_ok]
  constructor
  · rintro ⟨v, ⟨node, hnode, hcurrent⟩, name, hname, hread⟩
    exact ⟨node, v, name, hnode, hcurrent, hname, hread⟩
  · rintro ⟨node, v, name, hnode, hcurrent, hname, hread⟩
    exact ⟨v, ⟨node, hnode, hcurrent⟩, name, hname, hread⟩

end Read

/-! ## Preparing -/

section Prepare

variable {w : Workspace} {a : Action} {p : Prepared} {s s' : Store}

theorem mem_rowsOf {type : String} {r : Row} : r ∈ s.rowsOf type ↔ r ∈ s.rows ∧ r.type = type := by
  simp [rowsOf]

theorem find?_eq_none {type : String} {id : Value} : s.find? type id = none ↔ ∀ r ∈ s.rows, r.type = type → r.id ≠ id := by
  simp [find?, mem_rowsOf]

/-- What is prepared for an action: the identifier of its entity, or one made up that no row of the type has. -/
structure Prepares (s : Store) (w : Workspace) (a : Action) (p : Prepared) (node : Address) (v : Value)
    (name : String) : Prop where
  address : a.address? = some node
  current : w.current node = .ok v
  property : s.schema.idProperty? a.type = some name
  id : s.schema.read v name = .ok .null ∧ p.generated = some p.id ∨ s.schema.read v name = .ok p.id ∧ p.generated = none
  ne_null : p.id ≠ .null
  fresh : s.rows.length < 2 ^ 64 → ∀ r ∈ s.rows, r.type = a.type → r.id ≠ p.id

/-- An entity with or without an identifier, prepared for its row. -/
inductive Preparing (s : Store) (type : String) (v : Value) (name : String) : Prepared → Store → Prop
  | made {id : Int64} : s.schema.read v name = .ok .null →
      firstFree ((s.rowsOf type).map (·.id)) s.nextId = id →
      Preparing s type v name ⟨v.withField name (.int id), .int id, some (.int id)⟩ { s with nextId := id + 1 }
  | given {id : Value} : s.schema.read v name = .ok id → id ≠ .null → s.find? type id = none →
      Preparing s type v name ⟨v, id, none⟩ s

theorem Preparing.frame {type name : String} {v : Value} (h : Preparing s type v name p s') :
    s'.rows = s.rows ∧ s'.schema = s.schema := by
  cases h <;> exact ⟨rfl, rfl⟩

theorem runs_prepare_iff :
    (prepare w a).Runs s p s' ↔
      ∃ v name, valueOf w a = .ok v ∧ s.schema.idProperty? a.type = some name ∧ Preparing s a.type v name p s' := by
  constructor
  · intro h
    obtain ⟨s₀, s₁, hget, h⟩ := runs_bind.1 h
    obtain ⟨rfl, rfl⟩ := runs_get.1 hget
    obtain ⟨v, s₁, hvalue, h⟩ := runs_bind.1 h
    obtain ⟨hv, rfl⟩ := runs_except.1 hvalue
    obtain ⟨name, s₁, hproperty, h⟩ := runs_bind.1 h
    obtain ⟨hname, rfl⟩ := runs_except.1 hproperty
    obtain ⟨id, s₁, hread, h⟩ := runs_bind.1 h
    obtain ⟨hmap, rfl⟩ := runs_except.1 hread
    have hid := Except.mapError_eq_ok.1 hmap
    refine ⟨v, name, hv, idPropertyOf_eq_ok.1 hname, ?_⟩
    by_cases hnull : id = .null
    · subst hnull
      rw [if_pos (show Value.null.isNull = true from rfl)] at h
      obtain ⟨id, s₁, halloc, h⟩ := runs_bind.1 h
      obtain ⟨rfl, rfl⟩ := Prod.mk.inj (runs_state.1 halloc)
      obtain ⟨x, s₂, hx, h⟩ := runs_bind.1 h
      obtain ⟨hmap, rfl⟩ := runs_except.1 hx
      obtain ⟨rfl, rfl⟩ := runs_pure.1 h
      cases (Except.mapError_eq_ok.1 hmap).symm.trans (Schema.write_of_read hid _)
      exact .made hid rfl
    · rw [if_neg (by rwa [Value.isNull_iff])] at h
      obtain ⟨s₁, s₂, hget, h⟩ := runs_bind.1 h
      obtain ⟨rfl, rfl⟩ := runs_get.1 hget
      split at h
      · exact (not_runs_throw h).elim
      · rename_i hfind
        obtain ⟨rfl, rfl⟩ := runs_pure.1 h
        exact .given hid hnull (by simpa using hfind)
  · rintro ⟨v, name, hv, hname, h⟩
    refine runs_bind.2 ⟨s, s, runs_get.2 ⟨rfl, rfl⟩, runs_bind.2 ⟨v, s, runs_except.2 ⟨hv, rfl⟩, ?_⟩⟩
    refine runs_bind.2 ⟨name, s, runs_except.2 ⟨idPropertyOf_eq_ok.2 hname, rfl⟩, ?_⟩
    cases h with
    | made hread hid =>
      refine runs_bind.2 ⟨.null, s, runs_except.2 ⟨Except.mapError_eq_ok.2 hread, rfl⟩, ?_⟩
      rw [if_pos (show Value.null.isNull = true from rfl)]
      subst hid
      refine runs_bind.2 ⟨_, _, runs_state.2 rfl, runs_bind.2 ⟨_, _, runs_except.2 ⟨?_, rfl⟩, runs_pure.2 ⟨rfl, rfl⟩⟩⟩
      exact Except.mapError_eq_ok.2 (Schema.write_of_read hread _)
    | @given id hread hne hfind =>
      refine runs_bind.2 ⟨id, s, runs_except.2 ⟨Except.mapError_eq_ok.2 hread, rfl⟩, ?_⟩
      rw [if_neg (by rwa [Value.isNull_iff])]
      refine runs_bind.2 ⟨s, s, runs_get.2 ⟨rfl, rfl⟩, ?_⟩
      rw [if_neg (by simp [hfind])]
      exact runs_pure.2 ⟨rfl, rfl⟩

theorem runs_prepare (h : (prepare w a).Runs s p s') :
    (∃ node v name, Prepares s w a p node v name) ∧ s'.rows = s.rows ∧ s'.schema = s.schema := by
  obtain ⟨v, name, hv, hname, h⟩ := runs_prepare_iff.1 h
  obtain ⟨node, hnode, hcurrent⟩ := valueOf_eq_ok.1 hv
  refine ⟨⟨node, v, name, ?_⟩, h.frame⟩
  cases h with
  | made hid hfree =>
    refine ⟨hnode, hcurrent, hname, .inl ⟨hid, rfl⟩, nofun, fun hlen r hr ht heq => ?_⟩
    subst hfree
    refine @firstFree_not_mem ((s.rowsOf a.type).map (·.id)) ?_ s.nextId
      (List.mem_map.2 ⟨r, mem_rowsOf.2 ⟨hr, ht⟩, heq⟩)
    rw [List.length_map]
    exact (List.length_filter_le ..).trans_lt hlen
  | given hid hnull hfind => exact ⟨hnode, hcurrent, hname, .inr ⟨hid, rfl⟩, hnull, fun _ => find?_eq_none.1 hfind⟩

/-- An entity with the identifier of a row in its table is refused. -/
theorem prepare_of_duplicate {v id : Value} {name : String} (hv : valueOf w a = .ok v)
    (hname : s.schema.idProperty? a.type = some name) (hread : s.schema.read v name = .ok id) (hid : id ≠ .null)
    (hrow : ∃ r ∈ s.rows, r.type = a.type ∧ r.id = id) : prepare w a s = (.error (.duplicateKey id a.type), s) := by
  have hfind : (s.find? a.type id).isSome = true := by
    by_contra hnone
    obtain ⟨r, hr, ht, hrid⟩ := hrow
    exact find?_eq_none.1 (by simpa using hnone) r hr ht hrid
  rw [prepare, bind_of_runs (runs_get.2 ⟨rfl, rfl⟩), bind_of_runs (runs_except.2 ⟨hv, rfl⟩),
    bind_of_runs (runs_except.2 ⟨idPropertyOf_eq_ok.2 hname, rfl⟩),
    bind_of_runs (runs_except.2 ⟨Except.mapError_eq_ok.2 hread, rfl⟩), if_neg (by rwa [Value.isNull_iff]),
    bind_of_runs (runs_get.2 ⟨rfl, rfl⟩), if_pos hfind]
  rfl

/-- A preparation that fails leaves the store as it was: an identifier is made up only where it can be filled in. -/
theorem eq_of_fails_prepare (h : (prepare w a).Fails s s') : s' = s := by
  rw [prepare, fails_bind] at h
  rcases h with h | ⟨s₀, s₁, hget, h⟩
  · exact (not_fails_get h).elim
  obtain ⟨rfl, rfl⟩ := runs_get.1 hget
  rcases fails_bind.1 h with h | ⟨v, s₁, hvalue, h⟩
  · exact (fails_except.1 h).2.symm
  obtain ⟨-, rfl⟩ := runs_except.1 hvalue
  rcases fails_bind.1 h with h | ⟨name, s₁, hproperty, h⟩
  · exact (fails_except.1 h).2.symm
  obtain ⟨-, rfl⟩ := runs_except.1 hproperty
  rcases fails_bind.1 h with h | ⟨id, s₁, hread, h⟩
  · exact (fails_except.1 h).2.symm
  obtain ⟨hid, rfl⟩ := runs_except.1 hread
  split at h
  · rcases fails_bind.1 h with h | ⟨id, s₁, halloc, h⟩
    · exact (not_fails_state h).elim
    rcases fails_bind.1 h with h | ⟨x, s₂, hx, h⟩
    · -- the identifier was read, so it can be written
      obtain ⟨⟨_, hwrite⟩, -⟩ := fails_except.1 h
      rw [Schema.write_of_read (Except.mapError_eq_ok.1 hid)] at hwrite
      cases hwrite
    · exact (not_fails_pure h).elim
  · rcases fails_bind.1 h with h | ⟨s₁, s₂, hget, h⟩
    · exact (not_fails_get h).elim
    obtain ⟨rfl, rfl⟩ := runs_get.1 hget
    split at h
    · exact (fails_throw.1 h).symm
    · exact (not_fails_pure h).elim

end Prepare

/-! ## Steps -/

section Step

variable {w : Workspace} {a : Action} {executed : List Action} {s s' : Store} {id? : Option Value}

theorem runs_append {r : Row} {u : Unit} : (append r).Runs s u s' ↔ { s with rows := s.rows ++ [r] } = s' :=
  runs_modify

theorem runs_insertRoot_iff :
    (insertRoot w a).Runs s id? s' ↔ ∃ p s₁, (prepare w a).Runs s p s₁ ∧ id? = p.generated ∧
      s' = { s₁ with rows := s₁.rows ++ [⟨a.type, p.id, p.id, .root, none, [], p.value⟩] } := by
  constructor
  · intro h
    obtain ⟨p, s₁, hprepare, h⟩ := runs_bind.1 h
    obtain ⟨u, s₂, happend, h⟩ := runs_bind.1 h
    obtain rfl := runs_append.1 happend
    obtain ⟨rfl, rfl⟩ := runs_pure.1 h
    exact ⟨p, s₁, hprepare, rfl, rfl⟩
  · rintro ⟨p, s₁, hprepare, rfl, rfl⟩
    exact runs_bind.2 ⟨p, s₁, hprepare, runs_bind.2 ⟨(), _, runs_append.2 rfl, runs_pure.2 ⟨rfl, rfl⟩⟩⟩

/-- The row of a root, as inserted. -/
theorem runs_insertRoot (h : (insertRoot w a).Runs s id? s') :
    ∃ p node v name, Prepares s w a p node v name ∧ id? = p.generated ∧ s'.schema = s.schema ∧
      s'.rows = s.rows ++ [⟨a.type, p.id, p.id, .root, none, [], p.value⟩] := by
  obtain ⟨p, s₁, hprepare, rfl, rfl⟩ := runs_insertRoot_iff.1 h
  obtain ⟨⟨node, v, name, hp⟩, hrows, hschema⟩ := runs_prepare hprepare
  exact ⟨p, node, v, name, hp, rfl, hschema, by rw [hrows]⟩

theorem runs_insert_iff :
    (insert w a executed).Runs s id? s' ↔ ∃ dependency parentId rootId p s₁, a.dependency executed = some dependency ∧
      identity s.schema w dependency = .ok parentId ∧ rootIdentity s.schema w executed = .ok rootId ∧
      (prepare w a).Runs s p s₁ ∧ id? = p.generated ∧
      s' = { s₁ with rows := s₁.rows ++ [⟨a.type, p.id, rootId, (a.address?.map (·.path)).getD .root, some parentId,
        a.columns?.getD [], p.value⟩] } := by
  constructor
  · intro h
    obtain ⟨s₀, s₁, hget, h⟩ := runs_bind.1 h
    obtain ⟨rfl, rfl⟩ := runs_get.1 hget
    cases hd : a.dependency executed with
    | none =>
      simp only [hd] at h
      exact (not_runs_throw h).elim
    | some dependency =>
      simp only [hd] at h
      obtain ⟨parentId, s₁, hparent, h⟩ := runs_bind.1 h
      obtain ⟨hparentId, rfl⟩ := runs_except.1 hparent
      obtain ⟨rootId, s₁, hroot, h⟩ := runs_bind.1 h
      obtain ⟨hrootId, rfl⟩ := runs_except.1 hroot
      obtain ⟨p, s₁, hprepare, h⟩ := runs_bind.1 h
      obtain ⟨u, s₂, happend, h⟩ := runs_bind.1 h
      obtain rfl := runs_append.1 happend
      obtain ⟨rfl, rfl⟩ := runs_pure.1 h
      exact ⟨dependency, parentId, rootId, p, s₁, rfl, hparentId, hrootId, hprepare, rfl, rfl⟩
  · rintro ⟨dependency, parentId, rootId, p, s₁, hd, hparentId, hrootId, hprepare, rfl, rfl⟩
    refine runs_bind.2 ⟨s, s, runs_get.2 ⟨rfl, rfl⟩, ?_⟩
    simp only [hd]
    refine runs_bind.2 ⟨parentId, s, runs_except.2 ⟨hparentId, rfl⟩, ?_⟩
    refine runs_bind.2 ⟨rootId, s, runs_except.2 ⟨hrootId, rfl⟩, runs_bind.2 ⟨p, s₁, hprepare, ?_⟩⟩
    exact runs_bind.2 ⟨(), _, runs_append.2 rfl, runs_pure.2 ⟨rfl, rfl⟩⟩

/-- The row of an entity below a root, as inserted. -/
theorem runs_insert (h : (insert w a executed).Runs s id? s') :
    ∃ dependency parentId rootId p node v name, a.dependency executed = some dependency ∧
      identity s.schema w dependency = .ok parentId ∧ rootIdentity s.schema w executed = .ok rootId ∧
      Prepares s w a p node v name ∧ id? = p.generated ∧ s'.schema = s.schema ∧
      s'.rows = s.rows ++ [⟨a.type, p.id, rootId, node.path, some parentId, a.columns?.getD [], p.value⟩] := by
  obtain ⟨dependency, parentId, rootId, p, s₁, hd, hparentId, hrootId, hprepare, rfl, rfl⟩ := runs_insert_iff.1 h
  obtain ⟨⟨node, v, name, hp⟩, hrows, hschema⟩ := runs_prepare hprepare
  refine ⟨dependency, parentId, rootId, p, node, v, name, hd, hparentId, hrootId, hp, rfl, hschema, ?_⟩
  simp [hrows, hp.address]

/-- The row is that of the root of a type with an identifier. -/
def isRootRow (type : String) (id : Value) (r : Row) : Bool := r.type == type && r.isRoot && r.id == id

theorem isRootRow_iff {type : String} {id : Value} {r : Row} :
    isRootRow type id r = true ↔ r.type = type ∧ r.isRoot = true ∧ r.id = id := by
  simp [isRootRow, and_assoc]

theorem runs_updateRoot_iff :
    (updateRoot w a).Runs s id? s' ↔ ∃ id v, identity s.schema w a = .ok id ∧ valueOf w a = .ok v ∧
      (∃ r ∈ s.rows, isRootRow a.type id r = true) ∧ id? = none ∧
      s' = { s with rows := updateFirst (isRootRow a.type id) (fun r => { r with value := v }) s.rows } := by
  constructor
  · intro h
    obtain ⟨s₀, s₁, hget, h⟩ := runs_bind.1 h
    obtain ⟨rfl, rfl⟩ := runs_get.1 hget
    obtain ⟨id, s₁, hidentity, h⟩ := runs_bind.1 h
    obtain ⟨hid, rfl⟩ := runs_except.1 hidentity
    obtain ⟨v, s₁, hvalue, h⟩ := runs_bind.1 h
    obtain ⟨hv, rfl⟩ := runs_except.1 hvalue
    dsimp only at h
    split at h
    · rename_i hany
      obtain ⟨u, s₁, hset, h⟩ := runs_bind.1 h
      obtain rfl := runs_set.1 hset
      obtain ⟨rfl, rfl⟩ := runs_pure.1 h
      exact ⟨id, v, hid, hv, List.any_eq_true.1 hany, rfl, rfl⟩
    · exact (not_runs_throw h).elim
  · rintro ⟨id, v, hid, hv, hany, rfl, rfl⟩
    refine runs_bind.2 ⟨s, s, runs_get.2 ⟨rfl, rfl⟩, runs_bind.2 ⟨id, s, runs_except.2 ⟨hid, rfl⟩, ?_⟩⟩
    refine runs_bind.2 ⟨v, s, runs_except.2 ⟨hv, rfl⟩, ?_⟩
    have hany : (s.rows.any fun r => r.type == a.type && r.isRoot && r.id == id) = true := List.any_eq_true.2 hany
    dsimp only
    rw [if_pos hany]
    exact runs_bind.2 ⟨(), _, runs_set.2 rfl, runs_pure.2 ⟨rfl, rfl⟩⟩

/-- The rows after the root of an aggregate was updated. -/
theorem runs_updateRoot (h : (updateRoot w a).Runs s id? s') :
    ∃ id v, identity s.schema w a = .ok id ∧ valueOf w a = .ok v ∧ id? = none ∧ s'.schema = s.schema ∧
      (∃ r ∈ s.rows, isRootRow a.type id r = true) ∧
      s'.rows = updateFirst (isRootRow a.type id) (fun r => { r with value := v }) s.rows := by
  obtain ⟨id, v, hid, hv, hany, rfl, rfl⟩ := runs_updateRoot_iff.1 h
  exact ⟨id, v, hid, hv, rfl, rfl, hany, rfl⟩

theorem delete_eq (type : String) (rootId : Value) (path : Path) (s : Store) :
    delete type rootId path s =
      (.ok none, { s with rows := s.rows.filter fun r => !(r.type == type && r.rootId == rootId && r.path == path) }) :=
  rfl

theorem eq_of_fails_insertRoot (h : (insertRoot w a).Fails s s') : s' = s := by
  rcases fails_bind.1 h with h | ⟨p, s₁, -, h⟩
  · exact eq_of_fails_prepare h
  rcases fails_bind.1 h with h | ⟨u, s₂, -, h⟩
  · exact (not_fails_modify h).elim
  · exact (not_fails_pure h).elim

theorem eq_of_fails_updateRoot (h : (updateRoot w a).Fails s s') : s' = s := by
  rw [updateRoot, fails_bind] at h
  rcases h with h | ⟨s₀, s₁, hget, h⟩
  · exact (not_fails_get h).elim
  obtain ⟨rfl, rfl⟩ := runs_get.1 hget
  rcases fails_bind.1 h with h | ⟨id, s₁, hidentity, h⟩
  · exact (fails_except.1 h).2.symm
  obtain ⟨-, rfl⟩ := runs_except.1 hidentity
  rcases fails_bind.1 h with h | ⟨v, s₁, hvalue, h⟩
  · exact (fails_except.1 h).2.symm
  obtain ⟨-, rfl⟩ := runs_except.1 hvalue
  dsimp only at h
  split at h
  · rcases fails_bind.1 h with h | ⟨u, s₁, -, h⟩
    · exact (not_fails_set h).elim
    · exact (not_fails_pure h).elim
  · exact (fails_throw.1 h).symm

theorem eq_of_fails_insert (h : (insert w a executed).Fails s s') : s' = s := by
  rw [insert, fails_bind] at h
  rcases h with h | ⟨s₀, s₁, hget, h⟩
  · exact (not_fails_get h).elim
  obtain ⟨rfl, rfl⟩ := runs_get.1 hget
  cases hd : a.dependency executed with
  | none =>
    simp only [hd] at h
    exact (fails_throw.1 h).symm
  | some dependency =>
    simp only [hd] at h
    rcases fails_bind.1 h with h | ⟨parentId, s₁, hparent, h⟩
    · exact (fails_except.1 h).2.symm
    obtain ⟨-, rfl⟩ := runs_except.1 hparent
    rcases fails_bind.1 h with h | ⟨rootId, s₁, hroot, h⟩
    · exact (fails_except.1 h).2.symm
    obtain ⟨-, rfl⟩ := runs_except.1 hroot
    rcases fails_bind.1 h with h | ⟨p, s₁, -, h⟩
    · exact eq_of_fails_prepare h
    rcases fails_bind.1 h with h | ⟨u, s₂, -, h⟩
    · exact (not_fails_modify h).elim
    · exact (not_fails_pure h).elim

/-- A step that fails leaves the store as it was. -/
theorem eq_of_fails (h : (run w a executed).Fails s s') : s' = s := by
  cases a with
  | insertRoot _ _ _ => exact eq_of_fails_insertRoot h
  | updateRoot _ _ => exact eq_of_fails_updateRoot h
  | insert _ _ _ _ _ => exact eq_of_fails_insert h
  | delete type rootId path =>
    obtain ⟨⟨_, h⟩, -⟩ := h
    cases h

/-- The store as an executor carries out a step, or fails and is as it was. -/
theorem executor_cases (w : Workspace) (a : Action) (executed : List Action) (s : Store) :
    (∃ id?, (executor w a executed s).answer = .ok id? ∧ (run w a executed).Runs s id? (executor w a executed s).state) ∨
      (∃ e, (executor w a executed s).answer = .error e) ∧ (executor w a executed s).state = s := by
  unfold executor
  rcases hrun : run w a executed s with ⟨e | id?, s'⟩
  · exact .inr ⟨⟨_, rfl⟩, eq_of_fails ⟨⟨e, by rw [hrun]⟩, by rw [hrun]⟩⟩
  · exact .inl ⟨id?, rfl, by rw [hrun], by rw [hrun]⟩

end Step

end Store

end Aggregate
