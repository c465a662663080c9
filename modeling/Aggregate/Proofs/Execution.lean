import Mathlib
import Aggregate.Proofs.BackFill

/-!
# Executions

What an execution makes of the aggregate, for any executor.

- `Action.Aims`: what a planned action is about, `Action.backFillIn_eq_ok_iff`: when its identifier can be written back;
- `ChangeSet.run_cons`: one action carried out, or the end of the run; `ChangeSet.run_induction` for whole runs;
- `Executor.logged`: the same executor, which remembers each call (`ChangeSet.run_logged`);
- `ChangeSet.execute_of_run`: an execution succeeds if its run does and leaves a value at the root;
- `Inserts.aims`, `Plan.Starts.aims`: what the actions of a plan are about.
-/

namespace Aggregate

variable {schema : Schema} {σ : Type}

/-! ## Workspaces -/

/-- The workspace follows addresses by a schema, and one of its roots has this value. -/
structure Workspace.Holds (w : Workspace) (schema : Schema) (n : Nat) (R : Value) : Prop where
  schema_eq : w.schema = schema
  root_eq : w.roots[n]? = some R

namespace Workspace

@[simp] theorem record_nil (w : Workspace) : w.record [] = w := by simp [record]

/-- An edit that does nothing leaves the workspace as it is. -/
theorem edit_pure {α ε : Type} (w : Workspace) (number : Nat) (x : α) :
    w.edit number (pure x : Edit ε α) = (.ok x, w) := by
  have hroots : w.roots.set number (w.root number) = w.roots := by
    refine List.ext_getElem? fun i => ?_
    rw [List.getElem?_set]
    split
    · subst i
      split <;> simp_all [root]
    · rfl
  exact Prod.ext rfl (by simp only [edit]; exact congrArg (fun roots => ({ w with roots } : Workspace)) hroots)

end Workspace

namespace Workspace.Holds

variable {w : Workspace} {n : Nat} {R : Value}

theorem record (h : w.Holds schema n R) (writes : List Write) : (w.record writes).Holds schema n R :=
  ⟨h.schema_eq, h.root_eq⟩

theorem root (h : w.Holds schema n R) : w.root n = R := by
  rw [Workspace.root, List.getD_eq_getElem?_getD, h.root_eq, Option.getD_some]

theorem current (h : w.Holds schema n R) {node : Address} (hn : node.origin = n) :
    w.current node = node.current schema R := by
  rw [Workspace.current, h.schema_eq, hn, h.root]

/-- An edit in a workspace is the edit of its root. -/
theorem edit {α ε : Type} (h : w.Holds schema n R) (e : Edit ε α) :
    (w.edit n e).1 = (e ⟨R, w.writes⟩).1 ∧ (w.edit n e).2.Holds schema n (e ⟨R, w.writes⟩).2.root := by
  obtain ⟨hlt, -⟩ := List.getElem?_eq_some_iff.1 h.root_eq
  unfold Workspace.edit
  rw [h.root]
  exact ⟨rfl, h.schema_eq, List.getElem?_set_self hlt⟩

end Workspace.Holds

/-! ## Actions with answers -/

namespace Action

@[simp] theorem type_answered (a : Action) (id? : Option Value) : (a.answered id?).type = a.type := by
  cases a <;> cases id? <;> rfl

@[simp] theorem address?_answered (a : Action) (id? : Option Value) : (a.answered id?).address? = a.address? := by
  cases a <;> cases id? <;> rfl

@[simp] theorem isRoot_answered (a : Action) (id? : Option Value) : (a.answered id?).isRoot = a.isRoot := by
  cases a <;> cases id? <;> rfl

/-- An identifier has a property to go to, if there is one. -/
def Fillable (schema : Schema) (a : Action) : Prop :=
  a.generatedId ≠ none → schema.idProperty? a.type ≠ none

/-- The action, as planned, is about no entity or about one that occurs in the aggregate; a root action is about the
root. -/
structure Aims (schema : Schema) (n : Nat) (root : Value) (a : Action) : Prop where
  fresh : a.generatedId = none
  occurs : ∀ node, a.address? = some node → ∃ v, Occurs schema n root ⟨node, v⟩ ∧ v.type? = some a.type
  root : a.isRoot = true → a.address? = some (.root n)

variable {other : Option Schema} {a : Action} {w w' : Workspace} {n : Nat} {R : Value}

/-- An identifier that was written back to an entity had a property to go to. -/
theorem fillable_of_backFills {R' : Value} {node : Address} (h : BackFills schema a R R') (hnode : a.address? = some node) :
    a.Fillable schema := by
  intro hid
  cases h with
  | none hnone =>
    rcases hnone with hnone | hnone
    · exact absurd hnone hid
    · cases hnode.symm.trans hnone
  | write _ _ hname => simp [hname]

/-- No identifier is written back for an action that got none. -/
theorem backFillIn_of_fresh (other : Option Schema) (w : Workspace) (ha : a.generatedId = none) :
    a.backFillIn other w = (.ok (), w) := by
  have hedit (schema : Schema) : a.backFill other schema = pure () := by
    rw [backFill, ha]
  unfold backFillIn
  cases a.address? with
  | none => rfl
  | some node => exact hedit w.schema ▸ w.edit_pure node.origin ()

/-- Writing an identifier back in a workspace changes the root of the action's aggregate only. -/
theorem backFills_of_backFillIn (ho : other.getD schema = schema) (hw : w.Holds schema n R)
    (ha : ∀ node, a.address? = some node → node.Plain ∧ node.origin = n)
    (h : a.backFillIn other w = (.ok (), w')) : ∃ R', BackFills schema a R R' ∧ w'.Holds schema n R' := by
  unfold backFillIn at h
  cases hnode : a.address? with
  | none =>
    simp only [hnode, Prod.mk.injEq, true_and] at h
    subst h
    exact ⟨R, .none (.inr hnode), hw⟩
  | some node =>
    obtain ⟨-, hn⟩ := ha node hnode
    simp only [hnode, hn, hw.schema_eq] at h
    obtain ⟨hanswer, hholds⟩ := hw.edit (a.backFill other schema)
    rw [h] at hanswer hholds
    exact ⟨_, backFill_of_runs ho (fun node hnode => (ha node hnode).1) ⟨hanswer.symm, rfl⟩, hholds⟩

/-- Where writing an identifier back fails, the root is as it was. -/
theorem holds_of_backFillIn (ho : other.getD schema = schema) (hw : w.Holds schema n R)
    (ha : ∀ node, a.address? = some node → node.Plain ∧ node.origin = n) :
    ∃ R', (R' = R ∨ BackFills schema a R R') ∧ (a.backFillIn other w).2.Holds schema n R' := by
  cases hanswer : (a.backFillIn other w).1 with
  | ok _ =>
    have hfilled : a.backFillIn other w = (.ok (), (a.backFillIn other w).2) := Prod.ext hanswer rfl
    obtain ⟨R', hR, hw'⟩ := backFills_of_backFillIn ho hw ha hfilled
    exact ⟨R', .inr hR, hw'⟩
  | error e =>
    refine ⟨R, .inl rfl, ?_⟩
    unfold backFillIn at hanswer ⊢
    cases hnode : a.address? with
    | none => simp [hnode] at hanswer
    | some node =>
      obtain ⟨-, hn⟩ := ha node hnode
      simp only [hnode, hn, hw.schema_eq] at hanswer ⊢
      obtain ⟨hfails, hholds⟩ := hw.edit (a.backFill other schema)
      rw [root_of_fails_backFill ⟨⟨e, hfails.symm.trans hanswer⟩, rfl⟩] at hholds
      exact hholds

/-- An identifier can be written back if and only if it has a property to go to. -/
theorem backFillIn_eq_ok_iff (ho : other.getD schema = schema) (hw : w.Holds schema n R)
    (ha : ∀ node, a.address? = some node →
      node.Plain ∧ node.origin = n ∧ ∃ v, node.current schema R = .ok v ∧ v.type? = some a.type) :
    (∃ w', a.backFillIn other w = (.ok (), w')) ↔ a.Fillable schema := by
  have hedit : (∃ w', a.backFillIn other w = (.ok (), w')) ↔ (a.backFillIn other w).1 = .ok () :=
    ⟨fun ⟨w', h⟩ => by rw [h], fun h => ⟨_, Prod.ext h rfl⟩⟩
  rw [hedit]
  unfold backFillIn
  cases hnode : a.address? with
  | none =>
    have : a.generatedId = none := by cases a <;> first | rfl | cases hnode
    simp [Fillable, this]
  | some node =>
    obtain ⟨-, hn, v, hv, ht⟩ := ha node hnode
    have hplain : ∀ node, a.address? = some node → node.Plain := fun node hnode => (ha node hnode).1
    simp only [hn, hw.schema_eq, (hw.edit _).1]
    constructor
    · exact fun h => fillable_of_backFills (backFill_of_runs ho hplain ⟨h, rfl⟩) hnode
    · intro h
      have hfills : ∃ R', BackFills schema a R R' := by
        cases hid : a.generatedId with
        | none => exact ⟨R, .none (.inl hid)⟩
        | some id =>
          obtain ⟨name, hname⟩ := Option.ne_none_iff_exists'.1 (h (by simp [hid]))
          exact ⟨_, .write hid hnode hname hv ht⟩
      obtain ⟨R', hfills⟩ := hfills
      obtain ⟨d', hruns⟩ := backFill_ok (d := ⟨R, w.writes⟩) ho hplain hfills
      exact hruns.1

end Action

/-! ## Runs -/

namespace ChangeSet

/-- The executor carries out an action, and the identifier it answers with is written back. -/
structure Carries (other : Option Schema) (executor : Executor σ) (executed : List Action) (a : Action)
    (w : Workspace) (s : σ) (id? : Option Value) (w' : Workspace) : Prop where
  answer : (executor w a executed s).answer = .ok id?
  filled : (a.answered id?).backFillIn other (w.record (executor w a executed s).writes) = (.ok (), w')

variable {other : Option Schema} {executor : Executor σ} {type : String} {executed rest pending : List Action}
  {a : Action} {root? : Option Address} {w : Workspace} {s : σ}

/-- A run goes on after an action that is carried out, and ends at one that is not. -/
theorem run_cons (other : Option Schema) (executor : Executor σ) (type : String) (executed : List Action) (a : Action)
    (rest : List Action) (root? : Option Address) (w : Workspace) (s : σ) :
    (∃ id? w', Carries other executor executed a w s id? w' ∧
        run other executor type executed (a :: rest) root? w s =
          run other executor type (executed ++ [a.answered id?]) rest
            (((a.answered id?).rootAddress? type (w.record (executor w a executed s).writes)).or root?) w'
            (executor w a executed s).state) ∨
      (∀ id? w', ¬ Carries other executor executed a w s id? w') ∧
        (∃ e, (run other executor type executed (a :: rest) root? w s).answer = .error e) ∧
        (run other executor type executed (a :: rest) root? w s).state = (executor w a executed s).state := by
  simp only [run, runBy, Executor.agent]
  cases hanswer : (executor w a executed s).answer with
  | error cause =>
    refine .inr ⟨fun id? w' h => ?_, ⟨_, rfl⟩, rfl⟩
    cases hanswer.symm.trans h.answer
  | ok id? =>
    simp only
    rcases hfilled : (a.answered id?).backFillIn other (w.record (executor w a executed s).writes) with ⟨_ | _, w'⟩
    · refine .inr ⟨fun id?' w'' h => ?_, ⟨_, rfl⟩, rfl⟩
      cases hanswer.symm.trans h.answer
      cases hfilled.symm.trans h.filled
    · exact .inl ⟨id?, w', ⟨hanswer, hfilled⟩, rfl⟩

/-- What holds after each action that is carried out holds at the end of a run that succeeds. What follows from it, also
after an action that is not carried out, holds of the executor's state at the end of every run. -/
theorem run_induction {I : List Action → List Action → Option Address → Workspace → σ → Prop} {J : σ → Prop}
    (hdone : ∀ {executed root? w s}, I executed [] root? w s → J s)
    (hfail : ∀ {executed a rest root? w s}, I executed (a :: rest) root? w s →
      (∀ id? w', ¬ Carries other executor executed a w s id? w') → J (executor w a executed s).state)
    (hstep : ∀ {executed a rest root? w s id? w'}, I executed (a :: rest) root? w s →
      Carries other executor executed a w s id? w' →
      I (executed ++ [a.answered id?]) rest
        (((a.answered id?).rootAddress? type (w.record (executor w a executed s).writes)).or root?) w'
        (executor w a executed s).state)
    {r : Run σ} (hr : run other executor type executed pending root? w s = r) (h : I executed pending root? w s) :
    J r.state ∧ ∀ x, r.answer = .ok x → ∃ executed', I executed' [] x r.workspace r.state := by
  induction pending generalizing executed root? w s with
  | nil =>
    subst hr
    refine ⟨hdone h, fun x hx => ?_⟩
    cases hx
    exact ⟨executed, h⟩
  | cons a rest ih =>
    rcases run_cons other executor type executed a rest root? w s with
      ⟨id?, w', hcarries, hrun⟩ | ⟨hnone, ⟨e, herror⟩, hstate⟩
    · exact ih (hrun.symm.trans hr) (hstep h hcarries)
    · rw [hr] at herror hstate
      refine ⟨hstate ▸ hfail h hnone, fun x hx => ?_⟩
      cases herror.symm.trans hx

end ChangeSet

/-! ## Calls -/

/-- One call of an executor: the action as it was planned, and the answer. -/
structure Call where
  action : Action
  answer : Except String (Option Value)

/-- The same executor, which remembers its calls. -/
def Executor.logged (executor : Executor σ) : Executor (σ × List Call) := fun w a executed s =>
  let reply := executor w a executed s.1
  ⟨reply.answer, reply.writes, (reply.state, s.2 ++ [⟨a, reply.answer⟩])⟩

namespace ChangeSet

variable {other : Option Schema} {executor : Executor σ} {type : String} {executed rest pending : List Action}
  {a : Action} {root? : Option Address} {w : Workspace} {s : σ}

/-- Remembering calls changes nothing else. -/
theorem run_logged (other : Option Schema) (executor : Executor σ) (type : String) (executed pending : List Action)
    (root? : Option Address) (w : Workspace) (s : σ) (log : List Call) :
    ∃ calls, run other executor.logged type executed pending root? w (s, log) =
      { run other executor type executed pending root? w s with
        state := ((run other executor type executed pending root? w s).state, log ++ calls) } := by
  induction pending generalizing executed root? w s log with
  | nil => exact ⟨[], by simp [run, runBy]⟩
  | cons a rest ih =>
    simp only [run, runBy, Executor.agent, Executor.logged]
    cases (executor w a executed s).answer with
    | error cause => exact ⟨_, rfl⟩
    | ok id? =>
      simp only
      rcases (a.answered id?).backFillIn other (w.record (executor w a executed s).writes) with ⟨_ | _, w'⟩
      · exact ⟨_, rfl⟩
      · obtain ⟨calls, h⟩ := ih (executed ++ [a.answered id?]) _ w' _ (log ++ [⟨a, .ok id?⟩])
        exact ⟨⟨a, .ok id?⟩ :: calls, by simpa [run] using h⟩

/-- The calls of an executor in an execution. -/
def calls (other : Option Schema) (executor : Executor σ) (set : ChangeSet) (w : Workspace) (s : σ) : List Call :=
  (execute other executor.logged set w (s, [])).state.2

/-- The root action of a run tells the address of the root. -/
theorem rootAddress?_eq {n : Nat} {R : Value} (hw : w.Holds schema n R) (ha : a.isRoot = true → a.address? = some (.root n))
    (ht : R.type? = some type) : a.rootAddress? type w = if a.isRoot then some (.root n) else none := by
  unfold Action.rootAddress?
  cases hroot : a.isRoot with
  | false => rfl
  | true => simp [ha hroot, hw.current (show (Address.root n).origin = n from rfl), Address.current, ht]

/-! ## Executions -/

section Execute

variable (set : ChangeSet)

/-- An execution leaves what its run leaves. -/
theorem parts_finish (r : Run σ) : (set.finish r).workspace = r.workspace ∧ (set.finish r).state = r.state ∧
    (set.finish r).set.actions = r.actions := by
  unfold finish
  rcases r with ⟨e | ⟨_ | node⟩, actions, w', s'⟩
  · exact ⟨rfl, rfl, rfl⟩
  · exact ⟨rfl, rfl, rfl⟩
  · simp only
    split <;> exact ⟨rfl, rfl, rfl⟩

theorem state_execute :
    (execute other executor set w s).state = (run other executor set.type [] set.actions none w s).state :=
  (parts_finish set _).2.1

/-- An execution succeeds if its run does and leaves a value at the root. -/
theorem execute_of_run {r : Run σ} {P : Value → Prop}
    (hr : run other executor set.type [] set.actions none w s = r)
    (hx : ∀ x, r.answer = .ok x → ∃ node v, x = some node ∧ r.workspace.current node = .ok v ∧ P v) :
    ((execute other executor set w s).answer = .ok () ↔ ∃ x, r.answer = .ok x) ∧
      ((execute other executor set w s).answer = .ok () →
        ∃ v, (execute other executor set w s).set.entity = some v ∧ P v) := by
  unfold execute finish
  rw [hr]
  rcases r with ⟨e | x, actions, w', s'⟩
  · simp
  · obtain ⟨node, v, rfl, hv, hP⟩ := hx x rfl
    simp [hv, hP]

/-- Remembering calls changes nothing else. -/
theorem execute_logged :
    (execute other executor.logged set w (s, [])).answer = (execute other executor set w s).answer ∧
      (execute other executor.logged set w (s, [])).set = (execute other executor set w s).set := by
  unfold execute finish
  obtain ⟨calls, h⟩ := run_logged other executor set.type [] set.actions none w s []
  rw [h]
  rcases run other executor set.type [] set.actions none w s with ⟨e | ⟨_ | node⟩, actions, w', s'⟩
  · exact ⟨rfl, rfl⟩
  · exact ⟨rfl, rfl⟩
  · simp only
    split <;> exact ⟨rfl, rfl⟩

end Execute

end ChangeSet

/-! ## Plans -/

/-- Inserts are about what they insert. -/
theorem Inserts.aims {hidden : Value.Hidden} {n base : Nat} {root : Value} {before xs : List Occurrence}
    {acts : List Action} (hs : hidden.Spares schema) (h : Inserts base before xs acts)
    (hx : ∀ o ∈ xs, Occurs schema n root o) : ∀ a ∈ acts, a.Aims schema n (root.erase hidden) := by
  induction h with
  | nil => simp
  | @cons before rest o holder type j actions ht _ _ _ _ ih =>
    rw [List.forall_mem_cons] at hx ⊢
    refine ⟨⟨rfl, fun node hnode => ?_, nofun⟩, ih hx.2⟩
    cases hnode
    exact ⟨o.value.erase hidden, hx.1.erase hs, by rw [Value.type?_erase, ht]; rfl⟩

namespace Plan.Starts

variable {limit n : Nat} {root : Value} {type : String} {deletes : List Action} {head : Action}

theorem type?_eq (h : Starts schema limit n root type deletes head) : root.type? = some type := by
  cases h <;> assumption

theorem isRoot_head (h : Starts schema limit n root type deletes head) : head.isRoot = true := by
  cases h <;> rfl

/-- The deletes of a plan are about no entity, the action after them about the root. -/
theorem aims (hidden : Value.Hidden) (h : Starts schema limit n root type deletes head) :
    ∀ a ∈ deletes ++ [head], a.Aims schema n (root.erase hidden) := by
  have hocc : ∃ v, Occurs schema n (root.erase hidden) ⟨.root n, v⟩ ∧ v.type? = some type :=
    ⟨_, .root, by rw [Value.type?_erase, h.type?_eq]⟩
  cases h with
  | insert _ =>
    refine List.forall_mem_singleton.2 ⟨rfl, fun node hnode => ?_, fun _ => rfl⟩
    cases hnode
    exact hocc
  | update _ _ hdeletes =>
    obtain ⟨declared, -, rfl⟩ := deletesBelow_eq_ok.1 hdeletes
    refine List.forall_mem_append.2 ⟨fun a ha => ?_, List.forall_mem_singleton.2 ⟨rfl, fun node hnode => ?_, fun _ => rfl⟩⟩
    · obtain ⟨p, -, rfl⟩ := List.mem_map.1 ha
      exact ⟨rfl, nofun, nofun⟩
    · cases hnode
      exact hocc

end Plan.Starts

end Aggregate
