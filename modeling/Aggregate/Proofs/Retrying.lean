import Mathlib
import Aggregate.Proofs.Keys
import Aggregate.Proofs.Undo

/-!
# Executing a change set again

A change set that inserts a root does not insert it into a store twice, however often it is executed.

- `Action.Below`: an insert below the root, with the identifier it may have got in an earlier execution;
- `Store.run_cons_cases`: one action of a run over a store; `Store.run_below`: what a run of inserts below the root keeps,
  wherever it stops;
- `Store.Ready`: a change set that inserts a root, before its first execution or after any of them
  (`Ready.execute_of_error`, `Ready.execute_of_ok`);
- `Store.Retries`: what may happen to a change set between two executions (`Ready.retries`);
- `Store.refused_of_retries`: once the root was inserted, further executions are refused while its row is there.
-/

namespace Aggregate

open ChangeSet (execute planInsert)
open ExceptT (Runs)

variable {schema : Schema} {n : Nat} {type : String} {a : Action} {R R' : Value}

/-! ## Inserts below a root -/

namespace Action

/-- The action is an insert as planned below a root, not through the identifier of the root, or such an insert with the
identifier that it got. -/
def Below (schema : Schema) (n : Nat) (type : String) (a : Action) : Prop :=
  ∃ (plan : Action) (id? : Option Value), plan.Avoids schema n type ∧ a = plan.answered id?

theorem Avoids.below (h : a.Avoids schema n type) : a.Below schema n type := ⟨a, none, h, rfl⟩

namespace Below

/-- The identifier got last is the one that is kept. -/
theorem answered (h : a.Below schema n type) (id? : Option Value) : (a.answered id?).Below schema n type := by
  obtain ⟨plan, old?, hplan, rfl⟩ := h
  cases id? with
  | none => exact ⟨plan, old?, hplan, rfl⟩
  | some id =>
    refine ⟨plan, some id, hplan, ?_⟩
    cases plan <;> cases old? <;> rfl

theorem plain (h : a.Below schema n type) {node : Address} (hnode : a.address? = some node) :
    node.Plain ∧ node.origin = n := by
  obtain ⟨plan, id?, hplan, rfl⟩ := h
  rw [address?_answered] at hnode
  exact hplan.plain hnode

/-- An identifier written back below the root leaves the key of the root alone. -/
theorem key?_of_backFills (h : a.Below schema n type) (ht : R.type? = some type) (hR : BackFills schema a R R') :
    schema.key? R' = schema.key? R := by
  obtain ⟨plan, id?, hplan, rfl⟩ := h
  exact hplan.key?_of_backFills ht hR

/-- An insert that is carried out keeps the rows. -/
theorem rows_of_runs {w : Workspace} {executed : List Action} {s s' : Store} {id? : Option Value}
    (h : a.Below schema n type) (hrun : (Store.run w a executed).Runs s id? s') :
    s'.schema = s.schema ∧ s.rows <+: s'.rows := by
  obtain ⟨plan, old?, ⟨t, node, holder, l, rest, rfl, -⟩, rfl⟩ := h
  obtain ⟨generated, hinsert⟩ : ∃ generated, (Action.insert t node (some holder) node.columns none).answered old? =
      .insert t node (some holder) node.columns generated := by
    cases old? <;> exact ⟨_, rfl⟩
  rw [hinsert] at hrun
  obtain ⟨_, _, _, _, _, _, _, -, -, -, -, -, hschema, hrows⟩ := Store.runs_insert hrun
  exact ⟨hschema, hrows ▸ List.prefix_append ..⟩

end Below

end Action

namespace Store

variable {other : Option Schema} {executed rest pending : List Action} {root? : Option Address} {w w' : Workspace}
  {s s' : Store} {id : Value} {id? : Option Value} {set set' : ChangeSet} {head : Action} {cause : String}

/-! ## Runs -/

/-- A step that fails, as the store tells it to a run. -/
theorem executor_of_error {e : StoreError} (h : (Store.run w a executed s).1 = .error e) :
    executor w a executed s = ⟨.error e.message, [], s⟩ := by
  have hstate : (Store.run w a executed s).2 = s := eq_of_fails ⟨⟨e, h⟩, rfl⟩
  unfold executor
  rw [show Store.run w a executed s = (.error e, s) from Prod.ext h hstate]

/-- The first action of a run over a store: it is refused, and nothing changes; or it is carried out, its identifier is
written back, and the run stops there if this fails. -/
theorem run_cons_cases (other : Option Schema) (type : String) (executed : List Action) (a : Action)
    (rest : List Action) (root? : Option Address) (w : Workspace) (s : Store) :
    (∃ cause, (executor w a executed s).answer = .error cause ∧
        ChangeSet.run other executor type executed (a :: rest) root? w s =
          ⟨.error (.execution ⟨a.kind, a.describe w, cause⟩), executed ++ a :: rest, w, s⟩) ∨
      ∃ id? s' writes, executor w a executed s = ⟨.ok id?, writes, s'⟩ ∧ (Store.run w a executed).Runs s id? s' ∧
        ((∃ e, ChangeSet.run other executor type executed (a :: rest) root? w s =
            ⟨.error e, executed ++ a.answered id? :: rest, ((a.answered id?).backFillIn other (w.record writes)).2, s'⟩ ∧
            ((a.answered id?).backFillIn other (w.record writes)).1 = .error e) ∨
          ∃ root?', ChangeSet.run other executor type executed (a :: rest) root? w s =
            ChangeSet.run other executor type (executed ++ [a.answered id?]) rest root?'
              ((a.answered id?).backFillIn other (w.record writes)).2 s') := by
  simp only [ChangeSet.run, ChangeSet.runBy, Executor.agent]
  cases hrun : (Store.run w a executed s).1 with
  | error e =>
    rw [executor_of_error hrun]
    exact .inl ⟨e.message, rfl, by rw [Workspace.record_nil]⟩
  | ok id? =>
    obtain ⟨writes, hexecutor⟩ : ∃ writes, executor w a executed s = ⟨.ok id?, writes, (Store.run w a executed s).2⟩ := by
      unfold executor
      rw [show Store.run w a executed s = (.ok id?, (Store.run w a executed s).2) from Prod.ext hrun rfl]
      exact ⟨_, rfl⟩
    refine .inr ⟨id?, (Store.run w a executed s).2, writes, hexecutor, ⟨hrun, rfl⟩, ?_⟩
    simp only [hexecutor]
    rcases (a.answered id?).backFillIn other (w.record writes) with ⟨e | _, w'⟩
    · exact .inl ⟨e, rfl, rfl⟩
    · exact .inr ⟨_, rfl⟩

/-- A run of inserts below a root keeps the key of the root and all rows, wherever it stops. -/
theorem run_below (ho : other.getD schema = schema) (hkey : schema.key? R = some (type, id)) (hw : w.Holds schema n R)
    (hpending : ∀ a ∈ pending, a.Below schema n type) {r : Run Store} {setType : String}
    (hr : ChangeSet.run other executor setType executed pending root? w s = r) :
    ∃ R' after, r.workspace.Holds schema n R' ∧ schema.key? R' = some (type, id) ∧ r.actions = executed ++ after ∧
      (∀ a ∈ after, a.Below schema n type) ∧ r.state.schema = s.schema ∧ s.rows <+: r.state.rows := by
  induction pending generalizing executed root? w s R with
  | nil =>
    subst hr
    exact ⟨R, [], hw, hkey, (List.append_nil _).symm, nofun, rfl, List.prefix_rfl⟩
  | cons a rest ih =>
    obtain ⟨ha, hrest⟩ := List.forall_mem_cons.1 hpending
    rcases run_cons_cases other setType executed a rest root? w s with
      ⟨cause, -, hrun⟩ | ⟨id?, s', writes, -, hstep, hrun⟩
    · obtain rfl := hrun.symm.trans hr
      exact ⟨R, a :: rest, hw, hkey, rfl, hpending, rfl, List.prefix_rfl⟩
    · have hbelow := ha.answered id?
      obtain ⟨hschema, hrows⟩ := ha.rows_of_runs hstep
      obtain ⟨R', hR', hw'⟩ := Action.holds_of_backFillIn ho (hw.record writes) fun _ => hbelow.plain
      have hkey' : schema.key? R' = some (type, id) := by
        rcases hR' with rfl | hR'
        · exact hkey
        · rw [hbelow.key?_of_backFills (Schema.key?_eq_some.1 hkey).1 hR', hkey]
      rcases hrun with ⟨e, hrun, -⟩ | ⟨root?', hrun⟩
      · obtain rfl := hrun.symm.trans hr
        exact ⟨R', a.answered id? :: rest, hw', hkey', rfl, List.forall_mem_cons.2 ⟨hbelow, hrest⟩, hschema,
          hrows⟩
      · obtain ⟨R'', after, hw'', hkey'', hactions, hafter, hschema', hrows'⟩ := ih hkey' hw' hrest (hrun.symm.trans hr)
        refine ⟨R'', a.answered id? :: after, hw'', hkey'', ?_, List.forall_mem_cons.2 ⟨hbelow, hafter⟩,
          hschema'.trans hschema, hrows.trans hrows'⟩
        rw [hactions, List.append_assoc, List.singleton_append]

/-! ## Change sets that insert a root -/

theorem answered_insertRoot (type : String) (node : Address) (generated id? : Option Value) :
    (Action.insertRoot type node generated).answered id? = .insertRoot type node (id?.or generated) := by
  cases id? <;> rfl

/-- A root has the identifier that is written back to it, or the one it had if there is none to write back. -/
theorem key?_of_backFills_root {generated : Option Value} (ht : R.type? = some type)
    (hsome : ∀ id', generated = some id' → id' = id) (hnone : generated = none → schema.key? R = some (type, id))
    (hR : BackFills schema (.insertRoot type (.root n) generated) R R') : schema.key? R' = some (type, id) := by
  cases hR with
  | none h =>
    rcases h with h | h
    · exact hnone h
    · cases h
  | @write v id' node name hid hnode hname hv _ =>
    cases hnode
    cases hv
    rw [← hsome id' hid]
    exact Schema.key?_withField_of_idProperty? ht hname id'

/-- The root of an inserted row gets the identifier of the row, unless it has it; also if the insert was carried out
before. -/
theorem identified_of_inserted {generated : Option Value} (ho : other.getD schema = schema) (hw : w.Holds schema n R)
    (hkey : schema.key? R = some (type, .null) ∧ id? = some id ∨ schema.key? R = some (type, id) ∧ id? = none)
    (hgenerated : ∀ id', generated = some id' → schema.key? R = some (type, id')) :
    (∀ id', id?.or generated = some id' → id' = id) ∧
      ∃ w' R', (Action.insertRoot type (.root n) (id?.or generated)).backFillIn other w = (.ok (), w') ∧
        w'.Holds schema n R' ∧ schema.key? R' = some (type, id) := by
  obtain ⟨ht, name, hname⟩ : R.type? = some type ∧ ∃ name, schema.idProperty? type = some name := by
    obtain ⟨x, hx⟩ : ∃ x, schema.key? R = some (type, x) := by
      rcases hkey with ⟨hkey, -⟩ | ⟨hkey, -⟩
      · exact ⟨.null, hkey⟩
      · exact ⟨id, hkey⟩
    obtain ⟨ht, name, hname, -⟩ := Schema.key?_eq_some.1 hx
    exact ⟨ht, name, hname⟩
  have hsome : ∀ id', id?.or generated = some id' → id' = id := by
    intro id' hid
    rcases hkey with ⟨-, rfl⟩ | ⟨hkey, rfl⟩
    · exact (Option.some.inj hid).symm
    · -- an identifier from an earlier execution is the one that the root has
      cases (hgenerated id' hid).symm.trans hkey
      rfl
  have hnone : id?.or generated = none → schema.key? R = some (type, id) := by
    intro hid
    rcases hkey with ⟨-, rfl⟩ | ⟨hkey, -⟩
    · cases hid
    · exact hkey
  have hroot : ∀ node, (Action.insertRoot type (.root n) (id?.or generated)).address? = some node → node = .root n :=
    fun _ hnode => (Option.some.inj hnode).symm
  have hfillable : (Action.insertRoot type (.root n) (id?.or generated)).Fillable schema := by
    intro _
    show schema.idProperty? type ≠ none
    rw [hname]
    exact Option.some_ne_none name
  obtain ⟨w', hfilled⟩ := (Action.backFillIn_eq_ok_iff ho hw fun node hnode => by
    rw [hroot node hnode]
    exact ⟨trivial, rfl, R, rfl, ht⟩).2 hfillable
  obtain ⟨R', hR', hw'⟩ := Action.backFills_of_backFillIn ho hw (fun node hnode => by
    rw [hroot node hnode]
    exact ⟨trivial, rfl⟩) hfilled
  exact ⟨hsome, w', R', hfilled, hw', key?_of_backFills_root ht hsome hnone hR'⟩

/-- A change set that inserts a root of this type, with its root in the workspace: before its first execution or after
any of them. An identifier that its first action has got is the one of the root. -/
structure Ready (schema : Schema) (n : Nat) (type : String) (R : Value) (set : ChangeSet) (w : Workspace) : Prop where
  holds : w.Holds schema n R
  type_eq : R.type? = some type
  actions_eq : ∃ generated rest, set.actions = .insertRoot type (.root n) generated :: rest ∧
    (∀ id, generated = some id → schema.key? R = some (type, id)) ∧ ∀ a ∈ rest, a.Below schema n type

namespace Ready

theorem of_plan {limit : Nat} {w₀ w₁ : Workspace} {root : Value} (hs : schema.Separate) (hw₀ : w₀.schema = schema)
    (hplan : planInsert limit w₀ root = (.ok set, w₁)) :
    Ready schema w₀.roots.length set.type (w₁.root w₀.roots.length) set w₁ := by
  have hplanned : Planned schema root set w₀.roots.length (w₁.root w₀.roots.length) :=
    ⟨limit, w₀, w₁, hw₀, .inl hplan, rfl, rfl⟩
  obtain ⟨-, -, type, id, ps, head, inserts, -, houtline, -, -⟩ := hplanned.outline hs
  obtain ⟨rfl, rfl⟩ := houtline.of_planInsert hplan
  obtain ⟨rfl, hactions⟩ := houtline.set_parts
  obtain ⟨_, _, _, _, d, -, -, -, hschema, hroots⟩ := ChangeSet.starts_of_plan (.inl hplan)
  refine ⟨⟨hschema.trans hw₀, ?_⟩, houtline.type_eq, none, inserts, hactions, nofun, fun a ha =>
    (houtline.avoids a ha).below⟩
  simp [Workspace.root, hroots]

theorem head_eq (h : Ready schema n type R set w) (hhead : set.actions = head :: rest) :
    ∃ generated, head = .insertRoot type (.root n) generated ∧
      (∀ id, generated = some id → schema.key? R = some (type, id)) ∧ ∀ a ∈ rest, a.Below schema n type := by
  obtain ⟨generated, rest', hactions, hgenerated, hrest⟩ := h.actions_eq
  cases hactions.symm.trans hhead
  exact ⟨generated, rfl, hgenerated, hrest⟩

/-- If the first action is refused, nothing changes. -/
theorem execute_of_error (h : Ready schema n type R set w) (hhead : set.actions = head :: rest)
    (herror : (executor w head [] s).answer = .error cause) :
    execute other executor set w s = ⟨.error (.execution ⟨.insertRoot, R.render, cause⟩), set, w, s⟩ := by
  obtain ⟨generated, rfl, -, -⟩ := h.head_eq hhead
  have hdescribe : (Action.insertRoot type (.root n) generated).describe w = R.render := by
    have hcurrent : w.current (.root n) = .ok R := h.holds.current rfl
    simp [Action.describe, Action.value?, Action.address?, hcurrent, Except.map]
  rcases run_cons_cases other set.type [] (.insertRoot type (.root n) generated) rest none w s with
    ⟨cause', hanswer, hrun⟩ | ⟨_, _, _, hexecutor, -⟩
  · cases hanswer.symm.trans herror
    rw [execute, hhead, hrun, hdescribe, List.nil_append, ← hhead]
    rfl
  · rw [hexecutor] at herror
    cases herror

/-- If the first action is carried out, the root has an identifier from then on, the one of its row. -/
theorem execute_of_ok (h : Ready schema n type R set w) (hs : s.schema = schema) (ho : other.getD schema = schema)
    (hhead : set.actions = head :: rest) (hok : (executor w head [] s).answer = .ok id?) :
    ∃ row R', (executor w head [] s).state.rows = s.rows ++ [row] ∧ isRootRow type row.id row = true ∧ row.id ≠ .null ∧
      (execute other executor set w s).state.schema = schema ∧ row ∈ (execute other executor set w s).state.rows ∧
      (schema.key? R = some (type, .null) ∨ schema.key? R = some (type, row.id)) ∧
      schema.key? R' = some (type, row.id) ∧
      Ready schema n type R' (execute other executor set w s).set (execute other executor set w s).workspace := by
  obtain ⟨generated, rfl, hgenerated, hrest⟩ := h.head_eq hhead
  rcases run_cons_cases other set.type [] (.insertRoot type (.root n) generated) rest none w s with
    ⟨_, herror, -⟩ | ⟨id?', s', writes, hexecutor, hstep, hrun⟩
  · cases herror.symm.trans hok
  -- the store looks at the identifier of the root, not at the one in the action
  have hplain : (Store.run w (.insertRoot type (.root n) none) []).Runs s id?' s' := hstep
  obtain ⟨id, hinserts, hschema'⟩ := rootStep_of_runs h.holds h.type_eq hs (.inl rfl) hplain
  generalize hrows' : s'.rows = rows at hinserts
  cases hinserts with
  | @insert _ v _ hkey hid _ =>
    obtain ⟨hsome, w₁, R₁, hfilled, hw₁, hkey₁⟩ := identified_of_inserted ho (h.holds.record writes) hkey hgenerated
    rw [answered_insertRoot, hfilled, ← hhead] at hrun
    rcases hrun with ⟨e, -, herror⟩ | ⟨root?', hrun⟩
    · cases herror
    obtain ⟨R', after, hw', hkey', hactions, hafter, hschema, hrows⟩ := run_below ho hkey₁ hw₁ hrest rfl
    rw [← hrun] at hw' hactions hschema hrows
    obtain ⟨hworkspace, hstate, hset⟩ := ChangeSet.parts_finish set
      (ChangeSet.run other executor set.type [] set.actions none w s)
    refine ⟨⟨type, id, id, .root, none, [], v⟩, R', ?_, isRootRow_iff.2 ⟨rfl, rfl, rfl⟩, hid, ?_, ?_, ?_, hkey', ?_⟩
    · rw [hexecutor]
      exact hrows'
    · rw [execute, hstate, hschema, hschema']
    · rw [execute, hstate]
      refine hrows.subset ?_
      rw [hrows']
      exact List.mem_append_right _ List.mem_cons_self
    · exact hkey.imp (fun hkey => hkey.1) fun hkey => hkey.1
    · refine ⟨?_, (Schema.key?_eq_some.1 hkey').1, id?'.or generated, after, ?_, fun id' hid' => ?_, hafter⟩
      · rw [execute, hworkspace]
        exact hw'
      · rw [execute, hset, hactions]
        rfl
      · rw [hsome id' hid']
        exact hkey'

/-- While the row of its root is there, the change set is refused, and nothing changes. -/
theorem execute_of_hasRoot (h : Ready schema n type R set w) (hs : s.schema = schema)
    (hkey : schema.key? R = some (type, id)) (hid : id ≠ .null) (hroot : HasRoot type id s.rows) :
    execute other executor set w s =
      ⟨.error (.execution ⟨.insertRoot, R.render, (StoreError.duplicateKey id type).message⟩), set, w, s⟩ := by
  obtain ⟨generated, rest, hactions, -, -⟩ := h.actions_eq
  obtain ⟨name, hname, hread⟩ := Schema.read_of_key? hkey
  obtain ⟨row, hrow, hchosen⟩ := hroot
  obtain ⟨ht, -, hrid⟩ := isRootRow_iff.1 hchosen
  have hprepare : prepare w (.insertRoot type (.root n) generated) s = (.error (.duplicateKey id type), s) :=
    prepare_of_duplicate (valueOf_eq_ok.2 ⟨.root n, rfl, h.holds.current rfl⟩) (hs ▸ hname) (hs ▸ hread) hid
      ⟨row, hrow, ht, hrid⟩
  have hrun : (Store.run w (.insertRoot type (.root n) generated) [] s).1 = .error (.duplicateKey id type) := by
    rw [Store.run, insertRoot, ExceptT.bind_of_error hprepare]
  refine h.execute_of_error hactions ?_
  rw [executor_of_error hrun]

end Ready

/-! ## Between two executions -/

/-- What may happen to a change set and its workspace between two executions: the change set is executed on some store,
with any outcome, or the workspace changes elsewhere than in the aggregate of the change set. -/
inductive Retries (schema : Schema) (n : Nat) (set : ChangeSet) (w : Workspace) : ChangeSet → Workspace → Prop
  | none : Retries schema n set w set w
  | execute {set' : ChangeSet} {w' : Workspace} {other : Option Schema} {s : Store} : Retries schema n set w set' w' →
      other.getD schema = schema → s.schema = schema →
      Retries schema n set w (execute other executor set' w' s).set (execute other executor set' w' s).workspace
  | elsewhere {set' : ChangeSet} {w' w'' : Workspace} {R : Value} : Retries schema n set w set' w' →
      w'.Holds schema n R → w''.Holds schema n R → Retries schema n set w set' w''

/-- A change set stays ready, and its root keeps the identifier it has got. -/
theorem Ready.retries (h : Ready schema n type R set w) (hretries : Retries schema n set w set' w') :
    ∃ R', Ready schema n type R' set' w' ∧
      ∀ id, id ≠ .null → schema.key? R = some (type, id) → schema.key? R' = some (type, id) := by
  induction hretries with
  | none => exact ⟨R, h, fun _ _ hkey => hkey⟩
  | @execute set' w' other s _ ho hs ih =>
    obtain ⟨R', hready, hkeys⟩ := ih
    obtain ⟨generated, rest, hactions, -, -⟩ := hready.actions_eq
    cases hanswer : (executor w' (.insertRoot type (.root n) generated) [] s).answer with
    | error cause =>
      rw [hready.execute_of_error hactions hanswer]
      exact ⟨R', hready, hkeys⟩
    | ok id? =>
      obtain ⟨row, R'', -, -, -, -, -, hkey, hkey', hready'⟩ := hready.execute_of_ok hs ho hactions hanswer
      refine ⟨R'', hready', fun id hid hkeyR => ?_⟩
      -- the root had this identifier before, so its row has no other
      rcases hkey with hkey | hkey
      · cases hkey.symm.trans (hkeys id hid hkeyR)
        exact absurd rfl hid
      · rw [hkey', ← hkey, hkeys id hid hkeyR]
  | @elsewhere set' w' w'' R₁ _ hw' hw'' ih =>
    obtain ⟨R', hready, hkeys⟩ := ih
    obtain rfl : R₁ = R' := Option.some.inj (hw'.root_eq.symm.trans hready.holds.root_eq)
    exact ⟨R₁, { hready with holds := hw'' }, hkeys⟩

/-- A root is never inserted twice by executing its change set again. Say a change set was planned for inserting an
aggregate, and in some execution of it a store inserted the row of the root, be it the first execution or not, and
whatever became of the execution after that. Then each further execution, on a store in which that row still is, in
whatever state the store is otherwise, is refused at the first action, as its key is there, and changes nothing. -/
theorem refused_of_retries {limit : Nat} {root : Value} {w₀ w₁ w'' : Workspace} {set'' : ChangeSet}
    (hs : schema.Separate) (hw₀ : w₀.schema = schema) (hplan : planInsert limit w₀ root = (.ok set, w₁))
    (hbefore : Retries schema w₀.roots.length set w₁ set' w') (hschema : s.schema = schema)
    (ho : other.getD schema = schema) (hhead : set'.actions = head :: rest)
    (hok : (executor w' head [] s).answer = .ok id?)
    (hafter : Retries schema w₀.roots.length (execute other executor set' w' s).set
      (execute other executor set' w' s).workspace set'' w'') :
    ∃ row, (executor w' head [] s).state.rows = s.rows ++ [row] ∧ isRootRow set.type row.id row = true ∧
      (execute other executor set' w' s).state.schema = schema ∧ row ∈ (execute other executor set' w' s).state.rows ∧
      ∀ other' s', s'.schema = schema → HasRoot set.type row.id s'.rows →
        execute other' executor set'' w'' s' = ⟨.error (.execution ⟨.insertRoot, (w''.root w₀.roots.length).render,
          (StoreError.duplicateKey row.id set.type).message⟩), set'', w'', s'⟩ := by
  obtain ⟨R', hready', -⟩ := (Ready.of_plan hs hw₀ hplan).retries hbefore
  obtain ⟨row, R, hrows, hrow, hid, hschema', hmem, -, hkey, hready⟩ := hready'.execute_of_ok hschema ho hhead hok
  obtain ⟨R'', hready'', hkeys⟩ := hready.retries hafter
  refine ⟨row, hrows, hrow, hschema', hmem, fun other' s' hs' hroot => ?_⟩
  rw [hready''.holds.root]
  exact hready''.execute_of_hasRoot hs' (hkeys row.id hid hkey) hid hroot

end Store

namespace Shop

/-- An order with a tag that has the identifier of another tag. -/
def clash : Value :=
  .entity "Order" [("items", .list [.entity "Item" []]), ("tags", .set .linked [.entity "Tag" [("id", .int 1)]])]

/-- The workspace once that order was planned. -/
def plannedClash : Workspace := (planInsert 1 (.empty entities) clash).2

/-- The execution of its change set, which fails at the tag. -/
def clashed : ChangeSet.Executed Store :=
  execute none Store.executor (changes (planInsert 1 (.empty entities) clash)) plannedClash tagged

/-- Its execution on another store, where it succeeds. -/
def redirected : ChangeSet.Executed Store :=
  execute none Store.executor clashed.set clashed.workspace (.empty entities)

end Shop

namespace Store

/-- The order and its item were inserted when the tag was refused. Then the order is stored elsewhere, and after that it
is refused where it was inserted first. -/
theorem refused_of_retries_clash :
    planInsert 1 (.empty Shop.entities) Shop.clash =
        (.ok (Shop.changes (planInsert 1 (.empty Shop.entities) Shop.clash)), Shop.plannedClash) ∧
      Shop.clashed.answer = .error (.execution ⟨.insert, "Tag\x7bid=1\x7d", "Duplicate key 1 for Tag"⟩) ∧
      Shop.clashed.state.rows.length = Shop.tagged.rows.length + 2 ∧ Shop.redirected.answer = .ok () ∧
      ∃ row ∈ Shop.clashed.state.rows, isRootRow "Order" row.id row = true ∧
        execute none executor Shop.redirected.set Shop.redirected.workspace Shop.clashed.state =
          ⟨.error (.execution ⟨.insertRoot, (Shop.redirected.workspace.root 0).render,
            (StoreError.duplicateKey row.id "Order").message⟩), Shop.redirected.set, Shop.redirected.workspace,
            Shop.clashed.state⟩ := by
  have hplan : planInsert 1 (.empty Shop.entities) Shop.clash =
      (.ok (Shop.changes (planInsert 1 (.empty Shop.entities) Shop.clash)), Shop.plannedClash) := rfl
  have hs : Shop.entities.Separate := by decide
  obtain ⟨id?, hfirst⟩ : ∃ id?,
      (executor Shop.plannedClash (.insertRoot "Order" (.root 0) none) [] Shop.tagged).answer = .ok id? := ⟨_, rfl⟩
  have hafter : Retries Shop.entities 0 Shop.clashed.set Shop.clashed.workspace Shop.redirected.set
      Shop.redirected.workspace := .execute .none rfl rfl
  have ho : (none : Option Schema).getD Shop.entities = Shop.entities := rfl
  obtain ⟨row, -, hrow, hschema, hmem, hrefused⟩ := refused_of_retries hs rfl hplan .none rfl ho rfl hfirst hafter
  exact ⟨hplan, by decide +kernel, by decide +kernel, by decide +kernel, row, hmem, hrow,
    hrefused none Shop.clashed.state hschema ⟨row, hmem, hrow⟩⟩

end Store

end Aggregate
