import Mathlib
import Aggregate.ChangeSet.Scripted
import Aggregate.Proofs.Grounded
import Aggregate.Proofs.Soundness

/-!
# Calls of an agent

What an agent is called with while a change set is executed, whatever it answers and whatever it puts into the
aggregates.

- `Action.Depends`: the action for the holder is among those carried out before (`ChangeSet.depends_of_plan`);
- `Agent.observed`: the same agent, which remembers each call; `ChangeSet.observations`: the calls of an execution;
- `Observation.done`, `Observation.failure`: what a call leaves of its action, and the error of one that fails
  (`Observation.done_eq`, `Observation.failure_eq`);
- `ChangeSet.Obeys`: what one call adds to a run (`Obeys.cons`), and so what holds of the calls of each run
  (`ChangeSet.runBy_observed`);
- `ChangeSet.protocol_of_plan`: the calls of the execution of a planned change set.
-/

namespace Aggregate

/-! ## Dependencies -/

/-- The action finds, among those carried out before it, the one for the entity that directly holds its own. -/
def Action.Depends (executed : List Action) (a : Action) : Prop :=
  ∃ node parent holder, a.address? = some node ∧ node.parent? = some parent ∧
    a.dependency executed = some holder ∧ holder.address? = some parent

namespace ChangeSet

/-- The change set was made by planning. -/
inductive IsPlan (limit : Nat) : ChangeSet → Prop
  | store {w w' : Workspace} {root : Value} {set : ChangeSet} :
      planInsert limit w root = (.ok set, w') ∨ planUpdate limit w root = (.ok set, w') ∨
        planSave limit w root = (.ok set, w') → IsPlan limit set
  | delete {schema : Schema} {type : String} {id : Value} {root : Option Value} {set : ChangeSet} :
      planDelete limit schema type id root = .ok set → IsPlan limit set

/-- Each insert of a planned change set depends on an action before it. -/
theorem depends_of_plan {limit : Nat} {set : ChangeSet} (h : IsPlan limit set) {i : Nat} {a : Action}
    (ha : set.actions[i]? = some a) (hinsert : a.kind = .insert) : a.Depends (set.actions.take i) := by
  cases h with
  | delete h =>
    obtain ⟨declared, -, rfl⟩ := planDelete_eq_ok.1 h
    obtain ⟨p, -, rfl⟩ := List.mem_map.1 (List.mem_of_getElem? ha)
    cases hinsert
  | @store w w' root set h =>
    obtain ⟨type, deletes, head, inserts, hstarts, hactions, hground⟩ := grounded_of_plan h
    rw [hactions, List.append_cons] at ha ⊢
    rcases Nat.lt_or_ge i (deletes ++ [head]).length with hi | hi
    · rw [List.getElem?_append_left hi] at ha
      rcases List.mem_append.1 (List.mem_of_getElem? ha) with hmem | hmem
      · cases hinsert.symm.trans (hstarts.kind_deletes a hmem)
      · rw [List.mem_singleton.1 hmem] at hinsert
        cases hstarts <;> cases hinsert
    · rw [List.getElem?_append_right hi] at ha
      rw [List.take_append, List.take_of_length_le hi]
      obtain ⟨-, node, holder, hnode, hdependency, parent, e, r, place, hparent, -, -, rfl⟩ := hground.exists_holder ha
      exact ⟨_, parent, holder, hnode, rfl, hdependency, hparent⟩

end ChangeSet

/-! ## Calls -/

/-- One call of an agent: the action and the actions carried out before it, the answer, and the aggregates afterwards. -/
structure Observation where
  action : Action
  executed : List Action
  answer : Except String (Option Value)
  workspace : Workspace

/-- The text of the entity of a type at an address, as things stand. -/
def Workspace.textAt (w : Workspace) (type : String) (node : Address) : String :=
  match w.current node with
  | .ok v => v.render
  | .error e => type ++ " (unresolvable: " ++ e.message ++ ")"

namespace Observation

/-- The action of a call as carried out: an insert has got the identifier that was answered. -/
def done (c : Observation) : Action :=
  match c.action, c.answer with
  | .insertRoot type node _, .ok (some id) => .insertRoot type node (some id)
  | .insert type node dependsOn columns _, .ok (some id) => .insert type node dependsOn columns (some id)
  | a, _ => a

/-- What a call fails with: the kind of its action, and the text of what the action writes or deletes. -/
def failure (c : Observation) (cause : String) : ExecutionFailure :=
  match c.action with
  | .insertRoot type node _ => ⟨.insertRoot, c.workspace.textAt type node, cause⟩
  | .updateRoot type node => ⟨.updateRoot, c.workspace.textAt type node, cause⟩
  | .insert type node _ _ _ => ⟨.insert, c.workspace.textAt type node, cause⟩
  | .delete type rootId path => ⟨.delete, type ++ " at " ++ path.render ++ " of root " ++ rootId.render, cause⟩

/-- An action is carried out as it is told the answer. -/
theorem done_eq {c : Observation} {id? : Option Value} (h : c.answer = .ok id?) : c.done = c.action.answered id? := by
  obtain ⟨a, executed, answer, w⟩ := c
  cases h
  cases id? with
  | none => cases a <;> rfl
  | some id => cases a <;> rfl

/-- An error tells of the action of its call. -/
theorem failure_eq (c : Observation) (cause : String) :
    c.failure cause = ⟨c.action.kind, c.action.describe c.workspace, cause⟩ := by
  obtain ⟨a, executed, answer, w⟩ := c
  cases a with
  | delete type rootId path => rfl
  | insertRoot type node _ | updateRoot type node | insert type node _ _ _ =>
    simp only [failure, Workspace.textAt, Action.kind, Action.describe, Action.value?, Action.address?, Action.type]
    cases w.current node <;> rfl

@[simp] theorem address?_done (c : Observation) : c.done.address? = c.action.address? := by
  unfold done
  split <;> simp_all [Action.address?]

end Observation

variable {σ : Type}

/-- The same agent, which remembers its calls. -/
def Agent.observed (agent : Agent σ) : Agent (σ × List Observation) := fun w a executed s =>
  let outcome := agent w a executed s.1
  ⟨outcome.answer, outcome.workspace, (outcome.state, s.2 ++ [⟨a, executed, outcome.answer, outcome.workspace⟩])⟩

namespace ChangeSet

variable {other : Option Schema} {agent : Agent σ} {type : String} {executed pending : List Action} {a : Action}
  {root? : Option Address} {w : Workspace} {s : σ} {calls : List Observation} {r : Run σ}

/-- The calls of an agent in an execution. -/
def observations (other : Option Schema) (agent : Agent σ) (set : ChangeSet) (w : Workspace) (s : σ) :
    List Observation :=
  (executeBy other agent.observed set w (s, [])).state.2

/-- A run after some actions made these calls for the pending ones. -/
structure Obeys (executed pending : List Action) (calls : List Observation) (r : Run σ) : Prop where
  called : calls.map (·.action) <+: pending
  finished : calls.map (·.action) = pending ∨ ∃ e, r.answer = .error e
  executed_eq : ∀ i c, calls[i]? = some c → c.executed = executed ++ (calls.take i).map Observation.done
  failed : ∀ i c cause, calls[i]? = some c → c.answer = .error cause → i + 1 = calls.length ∧
    r.answer = .error (.execution (c.failure cause)) ∧
    r.actions = c.executed ++ pending.drop i

/-- One call more, with which a run ends. -/
theorem Obeys.last {c : Observation} (hexecuted : c.executed = executed) (hend : ∃ e, r.answer = .error e)
    (hfailed : ∀ cause, c.answer = .error cause →
      r.answer = .error (.execution (c.failure cause)) ∧
        r.actions = executed ++ c.action :: pending) :
    Obeys executed (c.action :: pending) [c] r := by
  refine ⟨by simp, .inr hend, fun i x hx => ?_, fun i x cause hx hcause => ?_⟩
  · cases i with
    | zero =>
      cases hx
      simpa using hexecuted
    | succ i => cases hx
  · cases i with
    | zero =>
      cases hx
      obtain ⟨hanswer, hactions⟩ := hfailed cause hcause
      exact ⟨rfl, hanswer, by rw [hactions, hexecuted, List.drop_zero]⟩
    | succ i => cases hx

/-- One call more, after which a run goes on. -/
theorem Obeys.cons {c : Observation} {id? : Option Value} (hexecuted : c.executed = executed)
    (hanswer : c.answer = .ok id?) (h : Obeys (executed ++ [c.done]) pending calls r) :
    Obeys executed (c.action :: pending) (c :: calls) r := by
  refine ⟨by simpa using h.called, ?_, fun i x hx => ?_, fun i x cause hx hcause => ?_⟩
  · exact h.finished.imp_left fun heq => by rw [List.map_cons, heq]
  · cases i with
    | zero =>
      cases hx
      simpa using hexecuted
    | succ i =>
      rw [h.executed_eq i x hx, List.take_succ_cons, List.map_cons, List.append_assoc, List.singleton_append]
  · cases i with
    | zero =>
      cases hx
      cases hanswer.symm.trans hcause
    | succ i =>
      obtain ⟨hlast, herror, hactions⟩ := h.failed i x cause hx hcause
      exact ⟨by rw [List.length_cons, hlast], herror, hactions⟩

/-- Remembering calls changes nothing else, and a run calls as agreed. -/
theorem runBy_observed (other : Option Schema) (agent : Agent σ) (type : String) (executed pending : List Action)
    (root? : Option Address) (w : Workspace) (s : σ) (log : List Observation) :
    ∃ calls, runBy other agent.observed type executed pending root? w (s, log) =
        { runBy other agent type executed pending root? w s with
          state := ((runBy other agent type executed pending root? w s).state, log ++ calls) } ∧
      Obeys executed pending calls (runBy other agent type executed pending root? w s) := by
  induction pending generalizing executed root? w s log with
  | nil => exact ⟨[], by simp [runBy], List.prefix_rfl, .inl rfl, nofun, nofun⟩
  | cons a rest ih =>
    let outcome := agent w a executed s
    let call : Observation := ⟨a, executed, outcome.answer, outcome.workspace⟩
    simp only [runBy, Agent.observed]
    cases hanswer : (agent w a executed s).answer with
    | error cause =>
      refine ⟨[call], by simp only [call, outcome, hanswer], .last (c := call) rfl ⟨_, rfl⟩ fun cause' hcause => ?_⟩
      cases hanswer.symm.trans hcause
      rw [call.failure_eq cause]
      exact ⟨rfl, rfl⟩
    | ok id? =>
      simp only
      rcases (a.answered id?).backFillIn other (agent w a executed s).workspace with ⟨e | ⟨⟩, w'⟩
      · refine ⟨[call], by simp only [call, outcome, hanswer], .last (c := call) rfl ⟨e, rfl⟩ fun cause hcause => ?_⟩
        cases hanswer.symm.trans hcause
      · have hdone : call.done = a.answered id? := Observation.done_eq hanswer
        obtain ⟨calls, hrun, hobeys⟩ := ih (executed ++ [a.answered id?])
          (((a.answered id?).rootAddress? type (agent w a executed s).workspace).or root?) w'
          (agent w a executed s).state (log ++ [⟨a, executed, .ok id?, (agent w a executed s).workspace⟩])
        refine ⟨call :: calls, ?_, .cons (c := call) rfl hanswer (hdone ▸ hobeys)⟩
        simp only [hrun, List.append_assoc, List.singleton_append, call, outcome, hanswer]

/-- A change set that ends in an error keeps its entity. -/
theorem entity_finish {set : ChangeSet} {e : ChangeError} (h : (set.finish r).answer = .error e) :
    (set.finish r).set.entity = set.entity := by
  unfold finish at h ⊢
  rcases r with ⟨_ | _ | node, actions, w, s⟩
  · rfl
  · cases h
  · simp only at h ⊢
    split at h
    · rfl
    · cases h

/-- The calls that were made in an execution, as agreed between a change set and its agent. -/
structure Protocol (set : ChangeSet) (calls : List Observation) (r : Executed σ) : Prop where
  /-- The agent is called for the actions in their order. -/
  called : calls.map (·.action) <+: set.actions
  finished : calls.map (·.action) = set.actions ∨ ∃ e, r.answer = .error e
  /-- It is told the actions carried out before, with the identifiers that it has answered. -/
  executed_eq : ∀ i c, calls[i]? = some c → c.executed = (calls.take i).map Observation.done
  /-- The action for the holder of an entity is among them. -/
  depends : ∀ c ∈ calls, c.action.kind = .insert → c.action.Depends c.executed
  /-- A call that fails is the last one. The error is about its action; the actions after it are left as they were. -/
  failed : ∀ i c cause, calls[i]? = some c → c.answer = .error cause → i + 1 = calls.length ∧
    r.answer = .error (.execution (c.failure cause)) ∧
    r.set.actions = c.executed ++ set.actions.drop i
  /-- After any error the entity is as it was. -/
  entity_eq : ∀ e, r.answer = .error e → r.set.entity = set.entity

/-- Answers do not change what an action depends on. -/
theorem depends_of_observed {actions : List Action} {i : Nat} (hcalled : calls.map (·.action) <+: actions)
    (hi : i ≤ calls.length) (h : a.Depends (actions.take i)) : a.Depends ((calls.take i).map Observation.done) := by
  obtain ⟨node, parent, holder, hnode, hparent, hdependency, hholder⟩ := h
  obtain ⟨j, hj, hat⟩ := Option.bind_eq_some_iff.1 hdependency
  have htake : actions.take i = (calls.take i).map (·.action) := by
    obtain ⟨more, rfl⟩ := hcalled
    rw [List.map_take, List.take_append_of_le_length (by simpa using hi)]
  rw [htake, List.getElem?_map] at hat
  obtain ⟨c, hc, rfl⟩ := Option.map_eq_some_iff.1 hat
  refine ⟨node, parent, c.done, hnode, hparent, Option.bind_eq_some_iff.2 ⟨j, hj, ?_⟩, by simpa using hholder⟩
  rw [List.getElem?_map, hc, Option.map_some]

/-- While a planned change set is executed, the agent is called for one action after another, each time with the actions
carried out so far and their identifiers; the action for the holder of an entity is always among them. An execution ends
with the first call that fails, and an execution that ends in an error, of whatever kind, keeps the entity. -/
theorem protocol_of_plan (limit : Nat) (set : ChangeSet) (other : Option Schema) (agent : Agent σ) (w : Workspace)
    (s : σ) (hplan : IsPlan limit set) :
    Protocol set (observations other agent set w s) (executeBy other agent set w s) := by
  obtain ⟨calls, hrun, hobeys⟩ := runBy_observed other agent set.type [] set.actions none w s []
  have hcalls : observations other agent set w s = calls := by
    simp only [observations, executeBy, hrun, finish, List.nil_append]
    split
    · rfl
    · rfl
    · split <;> rfl
  have hactions : (executeBy other agent set w s).set.actions =
      (runBy other agent set.type [] set.actions none w s).actions := by
    simp only [executeBy, finish]
    split
    · rfl
    · rfl
    · split <;> rfl
  have herror {e : ChangeError} (h : (runBy other agent set.type [] set.actions none w s).answer = .error e) :
      (executeBy other agent set w s).answer = .error e := by
    simp only [executeBy, finish, h]
  rw [hcalls]
  have hexecuted : ∀ i c, calls[i]? = some c → c.executed = (calls.take i).map Observation.done := hobeys.executed_eq
  refine ⟨hobeys.called, hobeys.finished.imp_right fun ⟨e, h⟩ => ⟨e, herror h⟩, hexecuted, fun c hc hinsert => ?_,
    fun i c cause hc hcause => ?_, fun e h => entity_finish h⟩
  · obtain ⟨i, hi, rfl⟩ := List.mem_iff_getElem.1 hc
    have hat : calls[i]? = some calls[i] := List.getElem?_eq_getElem hi
    rw [hexecuted i _ hat]
    refine depends_of_observed hobeys.called hi.le (depends_of_plan hplan ?_ hinsert)
    obtain ⟨more, hmore⟩ := hobeys.called
    rw [← hmore, List.getElem?_append_left (by simpa using hi), List.getElem?_map, hat, Option.map_some]
  · obtain ⟨hlast, hanswer, hrest⟩ := hobeys.failed i c cause hc hcause
    exact ⟨hlast, herror hanswer, hactions.trans hrest⟩

end ChangeSet

namespace Shop

/-- Answers to the plan for an order: two identifiers and a failure. -/
def refusals : Scripted.Script := ⟨[.ok (some (.int 1)), .ok (some (.int 7)), .error "full"], []⟩

theorem isPlan_ordering : ChangeSet.IsPlan 1 ordering :=
  @ChangeSet.IsPlan.store 1 (.empty entities) planned order ordering (.inl rfl)

end Shop

namespace ChangeSet

/-- The agent fails at the third of the five actions for an order, and has been told of the identifiers that it answered
before. -/
theorem protocol_of_plan_order :
    IsPlan 1 Shop.ordering ∧ Shop.ordering.actions.length = 5 ∧
      (observations none Scripted.executor.agent Shop.ordering Shop.planned Shop.refusals).map
        (fun c => c.executed.map (·.generatedId)) = [[], [some (.int 1)], [some (.int 1), some (.int 7)]] ∧
      Protocol Shop.ordering (observations none Scripted.executor.agent Shop.ordering Shop.planned Shop.refusals)
        (executeBy none Scripted.executor.agent Shop.ordering Shop.planned Shop.refusals) := by
  refine ⟨Shop.isPlan_ordering, by decide +kernel, by decide +kernel, ?_⟩
  exact protocol_of_plan 1 Shop.ordering none Scripted.executor.agent Shop.planned Shop.refusals Shop.isPlan_ordering

end ChangeSet

end Aggregate
