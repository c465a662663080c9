import Mathlib
import Aggregate.Proofs.Conforming
import Aggregate.Proofs.Storing

/-!
# Executions over a store

What a store does for the actions of a plan, one after another.

- `Row.key`: the entity type and the identifier of a row; `Answers`: the action carried out for an entity has its key;
- `Store.run_deletes`: a run that begins with deletes is the rest of the run on the store without these rows;
- `Store.Rooted`: the root action carried out last is about the root; inserts below the root keep this;
- `Store.RootStep`, `Store.Inserted`: what the store does for the root action and for an insert;
- `Store.run_storing`: what begins with the root action and goes on with each insert holds along a run.
-/

namespace Aggregate

open ChangeSet (Carries)

variable {schema : Schema}

/-! ## Lists side by side -/

section Lists

variable {α β : Type} {P Q : α → β → Prop} {xs : List α} {ys : List β}

theorem forall₂_imp_of_mem (h : List.Forall₂ P xs ys) (hPQ : ∀ x ∈ xs, ∀ y, P x y → Q x y) : List.Forall₂ Q xs ys :=
  ((List.forall₂_and_left xs ys).2 ⟨fun _ hx => hx, h⟩).imp fun x y hxy => hPQ x hxy.1 y hxy.2

theorem exists_getElem?_of_forall₂ (h : List.Forall₂ P xs ys) {i : Nat} {x : α} (hx : xs[i]? = some x) :
    ∃ y, ys[i]? = some y ∧ P x y := by
  obtain ⟨hi, rfl⟩ := List.getElem?_eq_some_iff.1 hx
  have hj : i < ys.length := h.length_eq ▸ hi
  exact ⟨ys[i], List.getElem?_eq_getElem hj, h.get hi hj⟩

end Lists

/-! ## Rows and actions -/

/-- The entity type and the identifier of a row. -/
def Row.key (r : Row) : String × Value := (r.type, r.id)

theorem Row.nodup_keys_append {rows : List Row} {r : Row} (h : (rows.map Row.key).Nodup)
    (hnew : r.key ∉ rows.map Row.key) : ((rows ++ [r]).map Row.key).Nodup := by
  rw [List.map_append, List.map_singleton, ← List.concat_eq_append]
  exact h.concat hnew

/-- The action for the entity at an address, with the identifier that the entity has got. -/
structure Answers (schema : Schema) (R : Value) (node : Address) (a : Action) : Prop where
  address_eq : a.address? = some node
  key_eq : ∃ id, schema.keyAt R node = some (a.type, id) ∧ ∀ id', a.generatedId = some id' → id' = id

theorem Answers.congr {R R' : Value} {node : Address} {a : Action} (h : Answers schema R node a)
    (hn : schema.keyAt R' node = schema.keyAt R node) : Answers schema R' node a :=
  ⟨h.address_eq, hn ▸ h.key_eq⟩

theorem Action.Avoids.plain_answered {n : Nat} {type : String} {a : Action} (h : a.Avoids schema n type)
    (id? : Option Value) : ∀ node, (a.answered id?).address? = some node → node.Plain := by
  intro node hnode
  rw [Action.address?_answered] at hnode
  exact (h.plain hnode).1

/-- An identifier written back below the root leaves the key of the root alone. -/
theorem Action.Avoids.key?_of_backFills {n : Nat} {type : String} {a : Action} {id? : Option Value} {R R' : Value}
    (h : a.Avoids schema n type) (ht : R.type? = some type) (hR : BackFills schema (a.answered id?) R R') :
    schema.key? R' = schema.key? R := by
  obtain ⟨t, node, holder, l, rest, rfl, -, -, -, hlinks, hl⟩ := h
  cases hR with
  | none _ => rfl
  | @write v id node' name _ hnode _ _ _ =>
    rw [Action.address?_answered] at hnode
    cases hnode
    rw [hlinks, Schema.key?_put_cons fun type' ht' => ?_]
    cases ht.symm.trans ht'
    exact hl

namespace Store

variable {other : Option Schema} {executed rest : List Action} {a : Action} {root? : Option Address}
  {w w' : Workspace} {s : Store} {n : Nat} {R : Value} {type name : String} {id : Value} {id? : Option Value}

/-! ## What was carried out -/

theorem runs_of_carries (h : Carries other executor executed a w s id? w') :
    (Store.run w a executed).Runs s id? (executor w a executed s).state := by
  rcases executor_cases w a executed s with ⟨id?', hanswer, hruns⟩ | ⟨⟨e, herror⟩, -⟩
  · cases hanswer.symm.trans h.answer
    exact hruns
  · cases herror.symm.trans h.answer

theorem executor_of_runs (h : (Store.run w a executed).Runs s none s') : executor w a executed s = ⟨.ok none, [], s'⟩ := by
  unfold executor
  rw [show Store.run w a executed s = (.ok none, s') from Prod.ext h.1 h.2]
  rfl

/-- A run goes on after an action that makes up no identifier; the workspace stays as it is. -/
theorem run_of_runs {pending : List Action} {root? : Option Address} (other : Option Schema)
    (h : (Store.run w a executed).Runs s none s') (ha : a.generatedId = none) :
    ChangeSet.run other executor type executed (a :: pending) root? w s =
      ChangeSet.run other executor type (executed ++ [a]) pending ((a.rootAddress? type w).or root?) w s' := by
  simp only [ChangeSet.run, ChangeSet.runBy, Executor.agent, executor_of_runs h, Action.answered, Workspace.record_nil,
    Action.backFillIn_of_fresh other w ha]

/-- An action carried out writes its identifier back to the root it is about. -/
theorem backFills_of_carries (ho : other.getD schema = schema) (hw : w.Holds schema n R)
    (ha : ∀ node, a.address? = some node → node.Plain ∧ node.origin = n)
    (h : Carries other executor executed a w s id? w') :
    ∃ R', BackFills schema (a.answered id?) R R' ∧ w'.Holds schema n R' :=
  Action.backFills_of_backFillIn ho (hw.record _) (fun node hnode => ha node (by simpa using hnode)) h.filled

/-- The identifier of an action's entity is the one the entity has got. -/
theorem eq_of_identity {node : Address} {x : Value} (hw : w.Holds schema n R) (hnode : a.address? = some node)
    (hplain : node.Plain) (hn : node.origin = n) (hkey : schema.keyAt R node = some (a.type, id))
    (hgen : ∀ id', a.generatedId = some id' → id' = id) (h : identity schema w a = .ok x) : x = id := by
  cases hid : a.generatedId with
  | some id' =>
    rw [identity, hid] at h
    cases h
    exact hgen _ hid
  | none =>
    obtain ⟨node', v, name, hnode', hv, hname, hread⟩ := (identity_eq_ok hid).1 h
    cases hnode.symm.trans hnode'
    rw [hw.current hn] at hv
    rw [Schema.keyAt, Address.at?_of_current hplain hv, Option.bind_some] at hkey
    obtain ⟨-, name', hname', rfl⟩ := Schema.key?_eq_some.1 hkey
    cases hname.symm.trans hname'
    exact (Schema.field_of_read hread).symm

/-- The identifier of an action's entity is there to be read. -/
theorem identity_of_answers {node : Address} {v : Value} (h : Answers schema R node a) (hw : w.Holds schema n R)
    (hplain : node.Plain) (hn : node.origin = n) (hv : node.current schema R = .ok v) :
    ∃ id, schema.keyAt R node = some (a.type, id) ∧ identity schema w a = .ok id := by
  obtain ⟨id, hkey, hgen⟩ := h.key_eq
  refine ⟨id, hkey, ?_⟩
  cases hid : a.generatedId with
  | some id' => rw [identity, hid, hgen id' hid]
  | none =>
    rw [Schema.keyAt, Address.at?_of_current hplain hv, Option.bind_some] at hkey
    obtain ⟨name, hname, hread⟩ := Schema.read_of_key? hkey
    exact (identity_eq_ok hid).2 ⟨node, v, name, h.address_eq, (hw.current hn).trans hv, hname, hread⟩

/-! ## Deletes -/

/-- The store without the rows at some declared paths below a root. -/
def clear (rootId : Value) (ps : List DeclaredPath) (s : Store) : Store :=
  { s with rows := s.rows.filter fun r =>
      !(r.rootId == rootId && ps.any fun p => r.type == p.target && r.path == p.path) }

@[simp] theorem clear_nil (rootId : Value) (s : Store) : s.clear rootId [] = s := by
  simp [clear]

theorem mem_clear {rootId : Value} {ps : List DeclaredPath} {r : Row} :
    r ∈ (s.clear rootId ps).rows ↔ r ∈ s.rows ∧ ¬ (r.rootId = rootId ∧ ∃ p ∈ ps, r.type = p.target ∧ r.path = p.path) := by
  simp only [clear, List.mem_filter, Bool.not_eq_true', Bool.and_eq_false_imp, beq_iff_eq, List.any_eq_false,
    Bool.and_eq_true, not_and, not_exists]

theorem runs_delete (w : Workspace) (p : DeclaredPath) (executed : List Action) (s : Store) :
    (Store.run w (.delete p.target id p.path) executed).Runs s none (s.clear id [p]) := by
  have hrows : (s.rows.filter fun r => !(r.type == p.target && r.rootId == id && r.path == p.path)) =
      (s.clear id [p]).rows := by
    refine List.filter_congr fun r _ => ?_
    simp only [List.any_cons, List.any_nil, Bool.or_false]
    rw [Bool.and_comm (r.type == p.target), Bool.and_assoc]
  rw [Store.run, ExceptT.Runs, delete_eq, hrows]
  exact ⟨rfl, rfl⟩

theorem clear_clear (ps qs : List DeclaredPath) : (s.clear id ps).clear id qs = s.clear id (ps ++ qs) := by
  simp only [clear, List.filter_filter, List.any_append, mk.injEq, true_and, and_true]
  refine List.filter_congr fun r _ => ?_
  cases r.rootId == id <;> simp [Bool.and_comm]

/-- Deletes are carried out; a run that begins with them goes on without the rows they are about. -/
theorem run_deletes (ps : List DeclaredPath) :
    ChangeSet.run other executor type executed ((ps.map fun p => .delete p.target id p.path) ++ rest) root? w s =
      ChangeSet.run other executor type (executed ++ ps.map fun p => .delete p.target id p.path) rest root? w
        (s.clear id ps) := by
  induction ps generalizing executed s with
  | nil => simp
  | cons p ps ih =>
    have hruns : (Store.run w (.delete p.target id p.path) executed).Runs s none (s.clear id [p]) :=
      runs_delete w p executed s
    have hroot : (Action.delete p.target id p.path).rootAddress? type w = none := rfl
    rw [List.map_cons, List.cons_append, run_of_runs other hruns rfl, hroot, Option.none_or, ih, clear_clear,
      List.append_assoc]
    rfl

/-! ## Root actions -/

/-- The root action carried out last is about the root of this number, which has this type and this identifier. -/
structure Rooted (schema : Schema) (n : Nat) (type : String) (id : Value) (executed : List Action) (R : Value) :
    Prop where
  key_eq : schema.key? R = some (type, id)
  action : ∃ a, executed.reverse.find? (·.isRoot) = some a ∧ a.address? = some (.root n) ∧ a.type = type ∧
    ∀ id', a.generatedId = some id' → id' = id

/-- The root identifier that inserts get is that of the root. -/
theorem Rooted.eq_of_rootIdentity (h : Rooted schema n type id executed R) (hw : w.Holds schema n R) {x : Value}
    (hx : rootIdentity schema w executed = .ok x) : x = id := by
  obtain ⟨a, hfind, hnode, rfl, hgen⟩ := h.action
  rw [rootIdentity, hfind] at hx
  exact eq_of_identity hw hnode trivial rfl h.key_eq hgen hx

theorem Rooted.rootIdentity_eq (h : Rooted schema n type id executed R) (hw : w.Holds schema n R) :
    rootIdentity schema w executed = .ok id := by
  obtain ⟨a, hfind, hnode, rfl, hgen⟩ := h.action
  have hanswers : Answers schema R (.root n) a := ⟨hnode, id, h.key_eq, hgen⟩
  obtain ⟨id', hkey, hid⟩ := identity_of_answers hanswers hw trivial rfl rfl
  cases hkey.symm.trans h.key_eq
  rw [rootIdentity, hfind]
  exact hid

/-- Actions that are not about the root leave the root action the last one. -/
theorem Rooted.append_of_isRoot_eq (h : Rooted schema n type id executed R) (ha : a.isRoot = false) {R' : Value}
    (hkey : schema.key? R' = some (type, id)) : Rooted schema n type id (executed ++ [a]) R' := by
  refine ⟨hkey, ?_⟩
  rw [List.reverse_append, List.reverse_singleton, List.singleton_append, List.find?_cons, ha]
  exact h.action

/-- Inserts that do not go through the identifier of the root leave the identifier alone. -/
theorem Rooted.append (h : Rooted schema n type id executed R) (ha : a.Avoids schema n type) {R' : Value}
    (hR : BackFills schema (a.answered id?) R R') : Rooted schema n type id (executed ++ [a.answered id?]) R' := by
  refine h.append_of_isRoot_eq ((Action.isRoot_answered ..).trans ha.isRoot_eq) ?_
  rw [ha.key?_of_backFills (Schema.key?_eq_some.1 h.key_eq).1 hR, h.key_eq]

/-- What the root action of a plan does to the rows of a store. The root gets the identifier `id`; `id?` is what was made
up for it. -/
inductive RootStep (schema : Schema) (n : Nat) (type : String) (R id : Value) :
    (head : Action) → (id? : Option Value) → (rows rows' : List Row) → Prop
  | insert {id? : Option Value} {v : Value} {rows : List Row} :
    schema.key? R = some (type, .null) ∧ id? = some id ∨ schema.key? R = some (type, id) ∧ id? = none → id ≠ .null →
      (rows.length < 2 ^ 64 → (type, id) ∉ rows.map Row.key) →
      RootStep schema n type R id (.insertRoot type (.root n) none) id? rows
        (rows ++ [⟨type, id, id, .root, none, [], v⟩])
  | update {v : Value} {rows : List Row} : schema.key? R = some (type, id) →
      (∃ r ∈ rows, isRootRow type id r = true) →
      RootStep schema n type R id (.updateRoot type (.root n)) none rows
        (updateFirst (isRootRow type id) (fun r => { r with value := v }) rows)

theorem not_mem_keys {rows : List Row} : (type, id) ∉ rows.map Row.key ↔ ∀ r ∈ rows, r.type = type → r.id ≠ id := by
  simp [Row.key]

section Root

variable {head : Action} {s' : Store} {R' : Value}

theorem rootStep_of_runs (hw : w.Holds schema n R) (ht : R.type? = some type) (hs : s.schema = schema)
    (hhead : head = .insertRoot type (.root n) none ∨ head = .updateRoot type (.root n))
    (h : (Store.run w head executed).Runs s id? s') :
    ∃ id, RootStep schema n type R id head id? s.rows s'.rows ∧ s'.schema = schema := by
  have hkey {name : String} {x : Value} (hname : s.schema.idProperty? type = some name)
      (hx : s.schema.read R name = .ok x) : schema.key? R = some (type, x) :=
    Schema.key?_eq_some.2 ⟨ht, name, hs ▸ hname, Schema.field_of_read hx⟩
  rcases hhead with rfl | rfl
  · obtain ⟨p, node, v, name, hp, rfl, hschema, hrows⟩ := runs_insertRoot h
    cases hp.address
    have hcurrent := hp.current
    rw [hw.current rfl] at hcurrent
    cases hcurrent
    refine ⟨p.id, hrows ▸ .insert ?_ hp.ne_null fun hlen => not_mem_keys.2 (hp.fresh hlen), hschema.trans hs⟩
    exact hp.id.imp (fun ⟨hid, hgen⟩ => ⟨hkey hp.property hid, hgen⟩) fun ⟨hid, hgen⟩ => ⟨hkey hp.property hid, hgen⟩
  · obtain ⟨id, v, hid, -, rfl, hschema, hany, hrows⟩ := runs_updateRoot h
    obtain ⟨node, u, name, hnode, hu, hname, hread⟩ := (identity_eq_ok rfl).1 hid
    cases hnode
    rw [hw.current rfl] at hu
    cases hu
    exact ⟨id, hrows ▸ .update (hkey hname hread) hany, hschema.trans hs⟩

/-- After the root action the root has its identifier. -/
theorem RootStep.rooted {rows rows' : List Row} (h : RootStep schema n type R id head id? rows rows')
    (ht : R.type? = some type) (hR : BackFills schema (head.answered id?) R R') :
    Rooted schema n type id (executed ++ [head.answered id?]) R' := by
  have hfind {a : Action} (ha : a.isRoot = true) : (executed ++ [a]).reverse.find? (·.isRoot) = some a := by
    simp [ha]
  cases h with
  | @insert id? v _ hkey _ _ =>
    have hroot : ((Action.insertRoot type (.root n) none).answered id?).isRoot = true := Action.isRoot_answered ..
    rcases hkey with ⟨hkey, rfl⟩ | ⟨hkey, rfl⟩
    · refine ⟨?_, _, hfind hroot, rfl, rfl, fun id' hid' => (Option.some.inj hid').symm⟩
      cases hR with
      | none hnone => rcases hnone with hnone | hnone <;> cases hnone
      | write hid hnode hname hv _ =>
        cases hid
        cases hnode
        cases hv
        exact Schema.key?_withField_of_idProperty? ht hname id
    · refine ⟨?_, _, hfind hroot, rfl, rfl, nofun⟩
      cases hR with
      | none _ => exact hkey
      | write hid _ _ _ _ => cases hid
  | update hkey _ =>
    refine ⟨?_, _, hfind rfl, rfl, rfl, nofun⟩
    cases hR with
    | none _ => exact hkey
    | write hid _ _ _ _ => cases hid

theorem RootStep.eq_of_generatedId {id' : Value} {rows rows' : List Row}
    (h : RootStep schema n type R id head id? rows rows') (hid : (head.answered id?).generatedId = some id') : id' = id := by
  cases h with
  | insert hkey _ _ =>
    rcases hkey with ⟨-, rfl⟩ | ⟨-, rfl⟩
    · exact (Option.some.inj hid).symm
    · cases hid
  | update _ _ => cases hid

end Root

/-! ## Inserts -/

/-- The row that an insert adds to others below a root. -/
structure Adds (a : Action) (rootId : Value) (rows : List Row) (row : Row) : Prop where
  type_eq : row.type = a.type
  rootId_eq : row.rootId = rootId
  path_eq : ∃ node, a.address? = some node ∧ row.path = node.path
  fresh : rows.length < 2 ^ 64 → row.key ∉ rows.map Row.key

theorem Rooted.adds_of_runs {s' : Store} (hr : Rooted schema n type id executed R) (hw : w.Holds schema n R)
    (hs : s.schema = schema) (ha : a.Avoids schema n type) (h : (Store.run w a executed).Runs s id? s') :
    ∃ row, Adds a id s.rows row ∧ s'.rows = s.rows ++ [row] ∧ s'.schema = schema := by
  obtain ⟨t, node, holder, l, rest, rfl, -⟩ := ha
  obtain ⟨dependency, parentId, rootId, p, node', v, name, -, -, hroot, hp, -, hschema, hrows⟩ := runs_insert h
  cases hr.eq_of_rootIdentity hw (hs ▸ hroot)
  exact ⟨_, ⟨rfl, rfl, ⟨node', hp.address, rfl⟩, fun hlen => not_mem_keys.2 (hp.fresh hlen)⟩, hrows, hschema.trans hs⟩

theorem Adds.isRoot_eq {rootId : Value} {rows : List Row} {row : Row} (h : Adds a rootId rows row)
    (ha : a.Avoids schema n type) : row.isRoot = false := by
  obtain ⟨t, node, holder, l, rest, rfl, -, -, hpath, -⟩ := ha
  obtain ⟨node', hnode, hrow⟩ := h.path_eq
  cases hnode
  rw [Row.isRoot, hrow, hpath]

/-- What the store does for an insert at an address below an entity, whose identifier is `parentId`. The entity there gets
the identifier `id`; `id?` is what was made up for it. -/
structure Inserted (schema : Schema) (R rootId parentId : Value) (node : Address) (type : String) (columns : Fields)
    (id? : Option Value) (rows rows' : List Row) (v : Value) (name : String) (id : Value) : Prop where
  current_eq : node.current schema R = .ok v
  read_eq : ∃ x, schema.read v name = .ok x
  property : schema.idProperty? type = some name
  id_eq : v.field name = .null ∧ id? = some id ∨ v.field name = id ∧ id? = none
  ne_null : id ≠ .null
  fresh : rows.length < 2 ^ 64 → (type, id) ∉ rows.map Row.key
  rows_eq : ∃ value, rows' = rows ++ [⟨type, id, rootId, node.path, some parentId, columns, value⟩]

section Inserted

variable {R' rootId parentId v : Value} {node : Address} {t : String} {columns : Fields} {rows rows' : List Row} {k : Nat}

/-- The action of an insert is the one for its entity, if the entity has got the identifier. -/
theorem Inserted.answers (h : Inserted schema R rootId parentId node t columns id? rows rows' v name id)
    (hkey : schema.keyAt R' node = some (t, id)) :
    Answers schema R' node ((Action.insert t node (some k) columns none).answered id?) := by
  refine ⟨by rw [Action.address?_answered]; rfl, id, by rw [Action.type_answered]; exact hkey, fun id' hid' => ?_⟩
  rcases h.id_eq with ⟨-, rfl⟩ | ⟨-, rfl⟩
  · exact (Option.some.inj hid').symm
  · cases hid'

/-- An identifier that was made up for an insert is put in place; an entity that has had one stays as it is. -/
theorem Inserted.filled (h : Inserted schema R rootId parentId node t columns id? rows rows' v name id)
    (hnode : node.Plain) (hvt : v.type? = some t)
    (hfills : BackFills schema ((Action.insert t node (some k) columns none).answered id?) R R') :
    v.field name = .null ∧ R' = R.put node.links (v.withField name id) ∨
      R' = R ∧ schema.keyAt R node = some (t, id) := by
  rcases h.id_eq with ⟨hnull, rfl⟩ | ⟨hid, rfl⟩
  · cases hfills with
    | none hnone => rcases hnone with hnone | hnone <;> cases hnone
    | write hgen hnode' hname hv _ =>
      cases hgen
      cases hnode'
      cases hname.symm.trans h.property
      cases hv.symm.trans h.current_eq
      exact .inl ⟨hnull, rfl⟩
  · cases hfills with
    | none _ =>
      refine .inr ⟨rfl, ?_⟩
      rw [Schema.keyAt, Address.at?_of_current hnode h.current_eq, Option.bind_some]
      exact Schema.key?_eq_some.2 ⟨hvt, name, h.property, hid⟩
    | write hgen _ _ _ _ => cases hgen

end Inserted

/-- An insert that depends on the action of an entity. -/
theorem Rooted.inserted_of_runs {s' : Store} {rootId : Value} {parent node : Address} {k : Nat} {columns : Fields}
    {dependency : Action} (hr : Rooted schema n type rootId executed R) (hw : w.Holds schema n R) (hs : s.schema = schema)
    (hdep : executed[k]? = some dependency) (hans : Answers schema R parent dependency) (hparent : parent.Plain)
    (hporigin : parent.origin = n) (hn : node.origin = n) {t : String}
    (h : (Store.run w (.insert t node (some k) columns none) executed).Runs s id? s') :
    s'.schema = schema ∧ ∃ parentId v name id, schema.keyAt R parent = some (dependency.type, parentId) ∧
      Inserted schema R rootId parentId node t columns id? s.rows s'.rows v name id := by
  obtain ⟨dependency', parentId, rootId', p, node', v, name, hdep', hpid, hroot, hp, rfl, hschema', hrows⟩ := runs_insert h
  cases hp.address
  cases hdep.symm.trans hdep'
  cases hr.eq_of_rootIdentity hw (hs ▸ hroot)
  obtain ⟨id, hkey, hgen⟩ := hans.key_eq
  cases eq_of_identity hw hans.address_eq hparent hporigin hkey hgen (hs ▸ hpid)
  refine ⟨hschema'.trans hs, parentId, v, name, p.id, hkey, (hw.current hn).symm.trans hp.current, ?_, hs ▸ hp.property,
    hp.id.imp (fun h => ⟨Schema.field_of_read h.1, h.2⟩) fun h => ⟨Schema.field_of_read h.1, h.2⟩, hp.ne_null,
    fun hlen => not_mem_keys.2 (hp.fresh hlen), p.value, hrows⟩
  exact hs ▸ hp.id.elim (fun h => ⟨_, h.1⟩) fun h => ⟨_, h.1⟩

/-- Rows added to others by some inserts below a root. -/
inductive Grows (inserts : List Action) (rootId : Value) (rows : List Row) : List Row → Prop
  | refl : Grows inserts rootId rows rows
  | step {rows' : List Row} {a : Action} {row : Row} : Grows inserts rootId rows rows' → a ∈ inserts →
      Adds a rootId rows' row → Grows inserts rootId rows (rows' ++ [row])

/-! ## Runs -/

/-- The rows after the root action of a plan and some of its inserts. -/
def Saves (schema : Schema) (n : Nat) (type : String) (R : Value) (head : Action) (inserts : List Action)
    (rows rows' : List Row) : Prop :=
  ∃ id id? stored, RootStep schema n type R id head id? rows stored ∧ Grows inserts id stored rows'

section Run

variable {head : Action} {inserts : List Action}

/-- A run of the root action and the inserts of a plan is at its begin, or among the inserts. Then `J` holds of what is
carried out and what is to come, of the identifier and the value of the root, and of the rows. -/
inductive Underway (schema : Schema) (n : Nat) (type : String) (R : Value) (head : Action) (inserts before : List Action)
    (rows : List Row) (J : List Action → List Action → Value → Value → List Row → Prop) (executed pending : List Action)
    (root? : Option Address) (w : Workspace) (rows' : List Row) : Prop
  | start : executed = before → pending = head :: inserts → w.Holds schema n R → rows' = rows →
      Underway schema n type R head inserts before rows J executed pending root? w rows'
  | among {id R' : Value} : (∀ a ∈ pending, a ∈ inserts) → root? = some (.root n) → w.Holds schema n R' →
      Rooted schema n type id executed R' → J executed pending id R' rows' →
      Underway schema n type R head inserts before rows J executed pending root? w rows'

variable {before : List Action} {rows : List Row} {J : List Action → List Action → Value → Value → List Row → Prop}
  {K : List Row → Prop}

/-- What a plan's root action makes of the rows, and what holds once its identifier is written back. -/
def Begins (schema : Schema) (n : Nat) (type : String) (R : Value) (head : Action) (inserts before : List Action)
    (rows : List Row) (J : List Action → List Action → Value → Value → List Row → Prop) (K : List Row → Prop) : Prop :=
  ∀ id id? rows', RootStep schema n type R id head id? rows rows' →
    K rows' ∧ ∀ R', BackFills schema (head.answered id?) R R' → J (before ++ [head.answered id?]) inserts id R' rows'

/-- What an insert makes of the rows, and what holds once its identifier is written back. -/
def Continues (schema : Schema) (n : Nat) (type : String) (inserts : List Action)
    (J : List Action → List Action → Value → Value → List Row → Prop) (K : List Row → Prop) : Prop :=
  ∀ executed a rest id R w s id? s', J executed (a :: rest) id R s.rows → a ∈ inserts →
    Rooted schema n type id executed R → w.Holds schema n R → s.schema = schema →
    (Store.run w a executed).Runs s id? s' →
    K s'.rows ∧ ∀ R', BackFills schema (a.answered id?) R R' → J (executed ++ [a.answered id?]) rest id R' s'.rows

theorem Begins.and {J' : List Action → List Action → Value → Value → List Row → Prop}
    (h : Begins schema n type R head inserts before rows J K)
    (h' : Begins schema n type R head inserts before rows J' K) :
    Begins schema n type R head inserts before rows
      (fun executed pending id R rows => J executed pending id R rows ∧ J' executed pending id R rows) K :=
  fun id id? rows' hstep => ⟨(h id id? rows' hstep).1, fun R' hR =>
    ⟨(h id id? rows' hstep).2 R' hR, (h' id id? rows' hstep).2 R' hR⟩⟩

theorem Continues.and {J' : List Action → List Action → Value → Value → List Row → Prop}
    (h : Continues schema n type inserts J K) (h' : Continues schema n type inserts J' K) :
    Continues schema n type inserts
      (fun executed pending id R rows => J executed pending id R rows ∧ J' executed pending id R rows) K := by
  intro executed a rest id R w s id? s' hJ ha hr hw hs hruns
  obtain ⟨hK, hnext⟩ := h executed a rest id R w s id? s' hJ.1 ha hr hw hs hruns
  obtain ⟨-, hnext'⟩ := h' executed a rest id R w s id? s' hJ.2 ha hr hw hs hruns
  exact ⟨hK, fun R' hR => ⟨hnext R' hR, hnext' R' hR⟩⟩

variable (ht : R.type? = some type) (hhead : head = .insertRoot type (.root n) none ∨ head = .updateRoot type (.root n))
  (hinserts : ∀ a ∈ inserts, a.Avoids schema n type)

include ht hhead hinserts

/-- What the store does for the next action, and what it takes that the run is among the inserts then. -/
theorem Underway.step {s' : Store} (hbegins : Begins schema n type R head inserts before rows J K)
    (hcontinues : Continues schema n type inserts J K)
    (hu : Underway schema n type R head inserts before rows J executed (a :: rest) root? w s.rows)
    (hs : s.schema = schema) (h : (Store.run w a executed).Runs s id? s') :
    s'.schema = schema ∧ K s'.rows ∧
      ∀ other w', Carries other executor executed a w s id? w' → other.getD schema = schema →
        Underway schema n type R head inserts before rows J (executed ++ [a.answered id?]) rest
          (((a.answered id?).rootAddress? type (w.record (executor w a executed s).writes)).or root?) w' s'.rows := by
  cases hu with
  | start hbefore hpending hw hrows =>
    cases hpending
    subst hbefore
    have hnode : a.address? = some (.root n) ∧ a.isRoot = true := by
      rcases hhead with rfl | rfl <;> exact ⟨rfl, rfl⟩
    obtain ⟨id, hstep, hs'⟩ := rootStep_of_runs hw ht hs hhead h
    rw [hrows] at hstep
    obtain ⟨hK, hJ⟩ := hbegins id id? s'.rows hstep
    refine ⟨hs', hK, fun other w' hcarries ho => ?_⟩
    obtain ⟨R', hR, hw'⟩ := backFills_of_carries ho hw (fun node hn => by
      cases hnode.1.symm.trans hn
      exact ⟨trivial, rfl⟩) hcarries
    refine .among (fun _ hb => hb) ?_ hw' (hstep.rooted ht hR) (hJ R' hR)
    rw [ChangeSet.rootAddress?_eq (hw.record _) (fun _ => by rw [Action.address?_answered, hnode.1]) ht,
      Action.isRoot_answered, hnode.2, if_pos rfl, Option.some_or]
  | @among id R' hpending hroot hw hrooted hJ =>
    rw [List.forall_mem_cons] at hpending
    have ha := hinserts a hpending.1
    obtain ⟨-, -, -, hs'⟩ := hrooted.adds_of_runs hw hs ha h
    obtain ⟨hK, hJ'⟩ := hcontinues executed a rest id R' w s id? s' hJ hpending.1 hrooted hw hs h
    refine ⟨hs', hK, fun other w' hcarries ho => ?_⟩
    obtain ⟨R'', hR, hw'⟩ := backFills_of_carries ho hw (fun node hn => ha.plain hn) hcarries
    refine .among hpending.2 ?_ hw' (hrooted.append ha hR) (hJ' R'' hR)
    simp [Action.rootAddress?, ha.isRoot_eq, hroot]

/-- What holds of the rows after each action of a run of the root action and the inserts of a plan, also if it fails. If
it succeeds, it has the address of the root, and what held after each action that was carried out holds of the root. -/
theorem run_storing (hbegins : Begins schema n type R head inserts before s.rows J K)
    (hcontinues : Continues schema n type inserts J K) (hK : K s.rows) (ho : other.getD schema = schema)
    (hw : w.Holds schema n R) (hs : s.schema = schema) {r : Run Store}
    (hrun : ChangeSet.run other executor type before (head :: inserts) root? w s = r) :
    r.state.schema = schema ∧ K r.state.rows ∧ ∀ x, r.answer = .ok x → x = some (.root n) ∧
      ∃ executed id R', r.workspace.Holds schema n R' ∧ Rooted schema n type id executed R' ∧
        J executed [] id R' r.state.rows := by
  obtain ⟨⟨hschema, hrows⟩, hdone⟩ := ChangeSet.run_induction
    (I := fun executed pending root? w s' => (s'.schema = schema ∧ K s'.rows) ∧
      Underway schema n type R head inserts before s.rows J executed pending root? w s'.rows)
    (J := fun s' => s'.schema = schema ∧ K s'.rows) And.left
    (fun {executed a rest root? w s'} ⟨⟨hs', hK⟩, hu⟩ _ => by
      rcases executor_cases w a executed s' with ⟨id?, -, hruns⟩ | ⟨-, hstate⟩
      · obtain ⟨hschema, hK, -⟩ := hu.step ht hhead hinserts hbegins hcontinues hs' hruns
        exact ⟨hschema, hK⟩
      · exact hstate.symm ▸ ⟨hs', hK⟩)
    (fun {executed a rest root? w s' id? w'} ⟨⟨hs', _⟩, hu⟩ hcarries => by
      obtain ⟨hschema, hK, hnext⟩ := hu.step ht hhead hinserts hbegins hcontinues hs' (runs_of_carries hcarries)
      exact ⟨⟨hschema, hK⟩, hnext other w' hcarries ho⟩)
    hrun ⟨⟨hs, hK⟩, .start rfl rfl hw rfl⟩
  refine ⟨hschema, hrows, fun x hx => ?_⟩
  obtain ⟨executed, -, hu⟩ := hdone x hx
  cases hu with
  | start _ hpending _ _ => cases hpending
  | @among id R' _ hroot hw' hrooted hJ => exact ⟨hroot, executed, id, R', hw', hrooted, hJ⟩

end Run

section Rows

variable {head : Action} {inserts pending before : List Action} {rows : List Row} {K : List Row → Prop}
  (hK : ∀ rows', Saves schema n type R head inserts rows rows' → K rows')

include hK

/-- The rows along a run of the root action and the inserts of a plan. -/
theorem begins_saves :
    Begins schema n type R head pending before rows
      (fun _ _ id _ rows' => ∃ id? stored, RootStep schema n type R id head id? rows stored ∧ Grows inserts id stored rows')
      K :=
  fun id id? rows' hstep => ⟨hK rows' ⟨id, id?, rows', hstep, .refl⟩, fun _ _ => ⟨id?, rows', hstep, .refl⟩⟩

theorem continues_saves (hinserts : ∀ a ∈ inserts, a.Avoids schema n type) :
    Continues schema n type inserts
      (fun _ _ id _ rows' => ∃ id? stored, RootStep schema n type R id head id? rows stored ∧ Grows inserts id stored rows')
      K := by
  intro executed a rest id R' w s id? s' ⟨id₀?, stored, hstep, hgrows⟩ ha hrooted hw hs h
  obtain ⟨row, hadds, hrows, -⟩ := hrooted.adds_of_runs hw hs (hinserts a ha) h
  have hgrows' : Grows inserts id stored s'.rows := hrows ▸ hgrows.step ha hadds
  exact ⟨hK s'.rows ⟨id, id₀?, stored, hstep, hgrows'⟩, fun _ _ => ⟨id₀?, stored, hstep, hgrows'⟩⟩

end Rows

end Store

end Aggregate
