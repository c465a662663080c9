import Mathlib
import Aggregate.ChangeSet.Scripted
import Aggregate.Proofs.Execution
import Aggregate.Proofs.Identity

/-!
# Identifiers that an executor makes up

What becomes of the identifiers that an executor answers with, call by call.

- `Call.grant?`: what a call makes up, and for which entity (`Action.answered_cases`: this is what its action keeps);
- `Call.Taken`, `Call.fill`: the calls that are carried out, and what they put where;
- `BackFills.keyAt_eq`: an identifier that was made up becomes the key of its entity, the keys of all others stay;
- `Call.Fills`: what one call makes of the aggregate (`ChangeSet.fills_of_carries`), and what a run makes of it
  (`ChangeSet.run_exact`);
- `ChangeSet.execute_exact`: an execution succeeds if and only if its executor does and each identifier has a property
  to go to, and then the aggregate has got the identifiers of all calls, and nothing else has changed.
-/

namespace Aggregate

variable {schema : Schema} {σ : Type}

/-! ## Grants -/

/-- An identifier made up for the entity of a type at an address. -/
structure Grant where
  type : String
  node : Address
  id : Value

namespace Call

/-- What a call makes up: the answer to an insert may be an identifier for the entity inserted. -/
def grant? (c : Call) : Option Grant :=
  match c.action, c.answer with
  | .insertRoot type node _, .ok (some id) => some ⟨type, node, id⟩
  | .insert type node _ _ _, .ok (some id) => some ⟨type, node, id⟩
  | _, _ => none

/-- The type and the identifier that calls make up last for the entity at the end of some links. -/
def lastKey? (ls : List Link) (calls : List Call) : Option (String × Value) :=
  ((calls.filterMap grant?).filter fun g => g.node.links = ls).getLast?.map fun g => (g.type, g.id)

/-- The executor did not fail, and an identifier that it made up has a property to go to. -/
def Taken (schema : Schema) (c : Call) : Prop :=
  (∃ id?, c.answer = .ok id?) ∧ ∀ g, c.grant? = some g → schema.idProperty? g.type ≠ none

/-- The value with what a call makes up put into the identifier property of the entity it was made up for. -/
def fill (schema : Schema) (v : Value) (c : Call) : Value :=
  match c.grant? with
  | some g => (schema.idProperty? g.type).elim v fun name => v.modify (fun x => x.withField name g.id) g.node.links
  | none => v

/-- Putting identifiers in place does not depend on the orderings of sets. -/
theorem unlabel_foldl_fill (calls : List Call) {v w : Value} (h : v.unlabel = w.unlabel) :
    (calls.foldl (fill schema) v).unlabel = (calls.foldl (fill schema) w).unlabel := by
  induction calls generalizing v w with
  | nil => exact h
  | cons c rest ih =>
    refine ih ?_
    unfold fill
    split
    · rename_i g _
      cases schema.idProperty? g.type with
      | none => exact h
      | some name =>
        rw [Option.elim_some, Option.elim_some, Value.unlabel_modify_withField, Value.unlabel_modify_withField, h]
    · exact h

theorem lastKey?_append (ls : List Link) (xs ys : List Call) :
    lastKey? ls (xs ++ ys) = (lastKey? ls ys).or (lastKey? ls xs) := by
  rw [lastKey?, List.filterMap_append, List.filter_append, List.getLast?_append, Option.map_or]
  rfl

theorem address?_of_grant? {c : Call} {g : Grant} (h : c.grant? = some g) : c.action.address? = some g.node := by
  obtain ⟨action, answer⟩ := c
  unfold grant? at h
  split at h <;> cases h <;> simp_all [Action.address?]

theorem mem_of_lastKey? {ls : List Link} {calls : List Call} {key : String × Value} (h : lastKey? ls calls = some key) :
    ∃ g, g.node.links = ls ∧ ∃ c ∈ calls, c.grant? = some g := by
  obtain ⟨g, hg, -⟩ := Option.map_eq_some_iff.1 h
  obtain ⟨hmem, hls⟩ := List.mem_filter.1 (List.mem_of_getLast? hg)
  exact ⟨g, of_decide_eq_true hls, List.mem_filterMap.1 hmem⟩

end Call

namespace Action

variable {a : Action}

/-- A planned action keeps what a call of it makes up, and nothing else. -/
theorem answered_cases (ha : a.generatedId = none) (id? : Option Value) :
    (∃ g, Call.grant? ⟨a, .ok id?⟩ = some g ∧ (a.answered id?).generatedId = some g.id ∧ a.type = g.type ∧
        a.address? = some g.node) ∨
      Call.grant? ⟨a, .ok id?⟩ = none ∧ (a.answered id?).generatedId = none := by
  cases id? with
  | none => cases a <;> exact .inr ⟨rfl, ha⟩
  | some id =>
    cases a with
    | insertRoot | insert => exact .inl ⟨_, rfl, rfl, rfl, rfl⟩
    | updateRoot | delete => exact .inr ⟨rfl, rfl⟩

theorem fillable_answered (ha : a.generatedId = none) (id? : Option Value) :
    (a.answered id?).Fillable schema ↔
      ∀ g, Call.grant? ⟨a, .ok id?⟩ = some g → schema.idProperty? g.type ≠ none := by
  rcases answered_cases ha id? with ⟨g, hg, hid, htype, -⟩ | ⟨hg, hid⟩
  · simp [Fillable, hg, hid, htype]
  · simp [Fillable, hg, hid]

theorem fill_answered (ha : a.generatedId = none) (id? : Option Value) (v : Value) :
    (a.answered id?).fill schema v = Call.fill schema v ⟨a, .ok id?⟩ := by
  rcases answered_cases ha id? with ⟨g, hg, hid, htype, hnode⟩ | ⟨hg, hid⟩
  · simp only [fill, Call.fill, hg, hid, type_answered, address?_answered, htype, hnode]
    cases schema.idProperty? g.type <;> rfl
  · simp only [fill, Call.fill, hg, hid]

theorem Aims.occurs_answered {n : Nat} {u : Value} (ha : a.Aims schema n u) (id? : Option Value) :
    ∀ node, (a.answered id?).address? = some node → ∃ v, Occurs schema n u ⟨node, v⟩ := by
  intro node hnode
  obtain ⟨v, hv, -⟩ := ha.occurs node (by simpa using hnode)
  exact ⟨v, hv⟩

end Action

/-! ## Keys -/

namespace BackFills

variable {a : Action} {R R' : Value} {n : Nat} {id? : Option Value}

/-- An identifier that was made up is read back. -/
theorem keyAt_granted (hs : schema.Separate) (hR : R.Ordered schema.isId) (hd : (R.erase schema.isId).SetsNodup)
    (ho : ∀ node, a.address? = some node → ∃ v, Occurs schema n (R.erase schema.isId) ⟨node, v⟩)
    (h : BackFills schema a R R') {node : Address} {id : Value} (hnode : a.address? = some node)
    (hid : a.generatedId = some id) : schema.keyAt R' node = some (a.type, id) := by
  cases h with
  | none hnone => simp [hid, hnode] at hnone
  | @write v id' node' name hid' hnode' hname hv ht =>
    cases hid.symm.trans hid'
    cases hnode.symm.trans hnode'
    obtain ⟨u, hu⟩ := ho node hnode
    obtain ⟨hat, -, hfits⟩ := fits_withField hs hR hd hu hname hv ht id
    have hn : v.isEntity = true := Value.isEntity_iff.2 ⟨_, ht⟩
    rw [Schema.keyAt, Value.at?_put_self hat hn hfits.firm, Option.bind_some]
    exact Schema.key?_withField_of_idProperty? ht hname id

/-- The keys of all other entities stay. -/
theorem keyAt_of_ne (hs : schema.Separate) (hR : R.Ordered schema.isId) (hd : (R.erase schema.isId).SetsNodup)
    (ho : ∀ node, a.address? = some node → ∃ v, Occurs schema n (R.erase schema.isId) ⟨node, v⟩)
    (h : BackFills schema a R R') {o : Occurrence} (hocc : Occurs schema n (R.erase schema.isId) o)
    (hne : ∀ node id, a.generatedId = some id → a.address? = some node → node.links ≠ o.node.links) :
    schema.keyAt R' o.node = schema.keyAt R o.node := by
  have hexact := h.exact hs hR hd ho
  cases h with
  | none _ => rfl
  | @write v id node name hid hnode hname hv ht =>
    obtain ⟨hR', hsame, -⟩ := hexact
    obtain ⟨y, hy, hyo, hyshown⟩ := hocc.current hs.spares hR
    have hyat := Address.at?_of_current hocc.plain hy
    cases hyt : y.type? with
    | some _ =>
      have hyn : y.isEntity = true := Value.isEntity_iff.2 ⟨_, hyt⟩
      obtain ⟨u, hu⟩ := ho node hnode
      obtain ⟨hat, hshown, hfits⟩ := fits_withField hs hR hd hu hname hv ht id
      have hn : v.isEntity = true := Value.isEntity_iff.2 ⟨_, ht⟩
      have huntouched := Value.untouched_of_fits hat hn hfits o.node.links
      have hlinks : o.node.links ≠ node.links := (hne node id hid hnode).symm
      rw [Schema.keyAt, Schema.keyAt, hyat, Option.bind_some]
      exact Value.key?_at?_put hname hshown (hyshown _ hs.spares) hat ht huntouched hlinks hyat hyn
    | none =>
      -- what is there afterwards looks the same to the erasure, so it is no entity either
      obtain ⟨x, hx, hxo, -⟩ := (hsame ▸ hocc).current hs.spares hR'
      have hxat := Address.at?_of_current hocc.plain hx
      have hxt : x.type? = Option.none := by rw [← Value.type?_erase, hxo, ← hyo, Value.type?_erase, hyt]
      simp only [Schema.keyAt, hxat, hyat, Option.bind_some, Schema.key?, hxt, hyt, Option.bind_none]

/-- After a call an entity has the identifier that was made up for it, or its own. -/
theorem keyAt_eq (hs : schema.Separate) (hR : R.Ordered schema.isId) (hd : (R.erase schema.isId).SetsNodup)
    (ha : a.Aims schema n (R.erase schema.isId)) (h : BackFills schema (a.answered id?) R R') {o : Occurrence}
    (hocc : Occurs schema n (R.erase schema.isId) o) :
    schema.keyAt R' o.node = (Call.lastKey? o.node.links [⟨a, .ok id?⟩]).or (schema.keyAt R o.node) := by
  have ho := ha.occurs_answered id?
  rcases Action.answered_cases ha.fresh id? with ⟨g, hg, hid, htype, hnode⟩ | ⟨hg, hid⟩
  · by_cases hls : g.node.links = o.node.links
    · have hkey := h.keyAt_granted hs hR hd ho (by simpa using hnode) hid
      have hlast : Call.lastKey? o.node.links [⟨a, .ok id?⟩] = some (g.type, g.id) := by simp [Call.lastKey?, hg, hls]
      rw [Schema.keyAt, hls, Action.type_answered, htype] at hkey
      rw [Schema.keyAt, hkey, hlast, Option.some_or]
    · have hkey := h.keyAt_of_ne hs hR hd ho hocc fun node _ _ hnode' => by
        rw [Action.address?_answered, hnode] at hnode'
        cases hnode'
        exact hls
      simpa [Call.lastKey?, hg, hls] using hkey
  · have hkey := h.keyAt_of_ne hs hR hd ho hocc fun _ _ hid' => by cases hid.symm.trans hid'
    simpa [Call.lastKey?, hg] using hkey

end BackFills

/-- What calls make of an aggregate, whose erasure is `u`: the value in which everything they make up is put in place, but
for the orderings of sets. Each entity has the last identifier that was made up for it, or its own. -/
structure Call.Fills (schema : Schema) (n : Nat) (u R : Value) (calls : List Call) (R' : Value) : Prop where
  unlabel_eq : R'.unlabel = (calls.foldl (Call.fill schema) R).unlabel
  keyAt_eq : ∀ o, Occurs schema n u o →
    schema.keyAt R' o.node = (Call.lastKey? o.node.links calls).or (schema.keyAt R o.node)

namespace Call.Fills

variable {n : Nat} {u R R₁ R' : Value} {calls : List Call}

theorem nil : Fills schema n u R [] R := ⟨rfl, fun _ _ => rfl⟩

/-- Some calls after others. -/
theorem append {earlier : List Call} (h : Fills schema n u R earlier R₁) (h' : Fills schema n u R₁ calls R') :
    Fills schema n u R (earlier ++ calls) R' := by
  refine ⟨?_, fun o ho => ?_⟩
  · rw [List.foldl_append]
    exact h'.unlabel_eq.trans (unlabel_foldl_fill calls h.unlabel_eq)
  · rw [h'.keyAt_eq o ho, h.keyAt_eq o ho, lastKey?_append, Option.or_assoc]

/-- The last identifier made up for an entity is read back. -/
theorem keyAlong_of_lastKey? (h : Fills schema n u R calls R') (haims : ∀ c ∈ calls, c.action.Aims schema n u)
    {ls : List Link} {key : String × Value} (hkey : lastKey? ls calls = some key) :
    schema.keyAlong R' ls = some key := by
  obtain ⟨g, rfl, c, hc, hg⟩ := mem_of_lastKey? hkey
  obtain ⟨v, hv, -⟩ := (haims c hc).occurs g.node (address?_of_grant? hg)
  have hread := h.keyAt_eq ⟨g.node, v⟩ hv
  rw [hkey, Option.some_or] at hread
  exact hread

end Call.Fills

/-! ## Runs -/

namespace ChangeSet

variable {other : Option Schema} {executor : Executor σ} {type : String} {executed pending : List Action} {a : Action}
  {root? : Option Address} {w w' : Workspace} {s : σ} {id? : Option Value} {n : Nat} {u R : Value}

/-- What an action is about is found in every value that looks the same without identifiers. -/
theorem current_of_aims (hs : schema.Separate) (ha : a.Aims schema n u) (hR : R.Ordered schema.isId)
    (hRu : R.erase schema.isId = u) (id? : Option Value) :
    ∀ node, (a.answered id?).address? = some node → node.Plain ∧ node.origin = n ∧
      ∃ v, node.current schema R = .ok v ∧ v.type? = some (a.answered id?).type := by
  intro node hnode
  rw [Action.address?_answered] at hnode
  obtain ⟨v, hv, hvt⟩ := ha.occurs node hnode
  subst hRu
  obtain ⟨x, hx, rfl, -⟩ := hv.current hs.spares hR
  exact ⟨hv.plain, hv.origin_eq, x, hx, by simpa using hvt⟩

/-- An action is carried out if and only if its call is taken. -/
theorem carries_iff (hs : schema.Separate) (ho : other.getD schema = schema) (ha : a.Aims schema n u)
    (hw : w.Holds schema n R) (hR : R.Ordered schema.isId) (hRu : R.erase schema.isId = u) :
    (∃ id? w', Carries other executor executed a w s id? w') ↔
      Call.Taken schema ⟨a, (executor w a executed s).answer⟩ := by
  have hfilled (id? : Option Value) :=
    (Action.backFillIn_eq_ok_iff ho (hw.record (executor w a executed s).writes)
      (current_of_aims hs ha hR hRu id?)).trans (Action.fillable_answered ha.fresh id?)
  constructor
  · rintro ⟨id?, w', hanswer, hw'⟩
    rw [hanswer]
    exact ⟨⟨id?, rfl⟩, (hfilled id?).1 ⟨w', hw'⟩⟩
  · rintro ⟨⟨id?, hanswer : (executor w a executed s).answer = .ok id?⟩, hgrant⟩
    rw [hanswer] at hgrant
    obtain ⟨w', hw'⟩ := (hfilled id?).2 hgrant
    exact ⟨id?, w', hanswer, hw'⟩

/-- What an action that is carried out makes of the aggregate. -/
theorem fills_of_carries (hs : schema.Separate) (ho : other.getD schema = schema) (hu : u.SetsNodup)
    (ha : a.Aims schema n u) (hw : w.Holds schema n R) (hR : R.Ordered schema.isId) (hRu : R.erase schema.isId = u)
    (h : Carries other executor executed a w s id? w') :
    ∃ R', w'.Holds schema n R' ∧ R'.Ordered schema.isId ∧ R'.erase schema.isId = u ∧
      Call.Fills schema n u R [⟨a, .ok id?⟩] R' := by
  have haddress := current_of_aims hs ha hR hRu id?
  subst hRu
  obtain ⟨R', hfills, hw'⟩ := Action.backFills_of_backFillIn ho (hw.record (executor w a executed s).writes)
    (fun node hnode => ⟨(haddress node hnode).1, (haddress node hnode).2.1⟩) h.filled
  obtain ⟨hR', hu', hlabel⟩ := hfills.exact hs hR hu (ha.occurs_answered id?)
  refine ⟨R', hw', hR', hu', ?_, fun o hocc => hfills.keyAt_eq hs hR hu ha hocc⟩
  rw [hlabel, Action.fill_answered ha.fresh]
  rfl

/-- A run succeeds if and only if all its calls are taken. Then it has called for each action, and the root has got the
identifiers of all calls. -/
theorem run_exact {r : Run (σ × List Call)} (hs : schema.Separate) (ho : other.getD schema = schema) (hu : u.SetsNodup)
    (ht : u.type? = some type) (hpending : ∀ a ∈ pending, a.Aims schema n u) (hw : w.Holds schema n R)
    (hR : R.Ordered schema.isId) (hRu : R.erase schema.isId = u) {log : List Call}
    (hr : run other executor.logged type executed pending root? w (s, log) = r) :
    ∃ calls, r.state.2 = log ++ calls ∧ ((∃ x, r.answer = .ok x) ↔ ∀ c ∈ calls, c.Taken schema) ∧
      ∀ x, r.answer = .ok x → calls.map (·.action) = pending ∧
        x = (if pending.any (·.isRoot) then some (.root n) else root?) ∧
        ∃ R', r.workspace.Holds schema n R' ∧ Call.Fills schema n u R calls R' := by
  -- by induction on the actions still to do: each one leaves a root with the same erasure, to which `u` refers
  induction pending generalizing executed root? w s R log with
  | nil =>
    subst hr
    refine ⟨[], by simp [run, runBy], ⟨by simp, fun _ => ⟨root?, rfl⟩⟩, fun x hx => ?_⟩
    cases hx
    exact ⟨rfl, rfl, R, hw, .nil⟩
  | cons a rest ih =>
    rw [List.forall_mem_cons] at hpending
    obtain ⟨haim, hrest⟩ := hpending
    let call : Call := ⟨a, (executor w a executed s).answer⟩
    have htaken : (∃ id? w', Carries other executor.logged executed a w (s, log) id? w') ↔ call.Taken schema :=
      carries_iff hs ho haim hw hR hRu
    rcases run_cons other executor.logged type executed a rest root? w (s, log) with
      ⟨id?, w', hcarries, hrun⟩ | ⟨hnone, ⟨e, herror⟩, hstate⟩
    · have hcall : call = ⟨a, .ok id?⟩ := congrArg (Call.mk a) hcarries.answer
      obtain ⟨R₁, hw₁, hR₁, hu₁, hfills⟩ := fills_of_carries hs ho hu haim hw hR hRu hcarries
      have hRt : R.type? = some type := by rw [← Value.type?_erase, hRu, ht]
      have hroot := rootAddress?_eq (a := a.answered id?)
        (hw.record (executor.logged w a executed (s, log)).writes) (by simpa using haim.root) hRt
      obtain ⟨calls, hlog, hok, hdone⟩ := ih hrest hw₁ hR₁ hu₁ (hrun.symm.trans hr)
      refine ⟨call :: calls, hlog.trans (List.append_assoc ..), ?_, fun x hx => ?_⟩
      · rw [hok, List.forall_mem_cons, and_iff_right (htaken.1 ⟨id?, w', hcarries⟩)]
      · obtain ⟨hmap, hx, R', hw', hcalls⟩ := hdone x hx
        refine ⟨by rw [List.map_cons, hmap], ?_, R', hw', (hcall ▸ hfills).append hcalls⟩
        rw [hx, hroot, Action.isRoot_answered, List.any_cons]
        cases a.isRoot <;> cases rest.any (·.isRoot) <;> rfl
    · rw [hr] at herror hstate
      refine ⟨[call], by rw [hstate]; rfl, ?_, fun x hx => ?_⟩
      · rw [List.forall_mem_singleton, ← htaken]
        constructor
        · rintro ⟨x, hx⟩
          cases herror.symm.trans hx
        · rintro ⟨id?, w', hcarries⟩
          exact (hnone id? w' hcarries).elim
      · cases herror.symm.trans hx

end ChangeSet

/-! ## Executions -/

/-- Answers to the plan for an order: identifiers for the order, its two items and the second tag. -/
def Shop.replies : Scripted.Script :=
  ⟨[.ok (some (.int 1)), .ok (some (.int 7)), .ok (some (.int 8)), .ok none, .ok (some (.text "t"))], []⟩

namespace ChangeSet

/-- What planning to store an aggregate leaves: a change set whose actions are about entities of the aggregate, which
looks as before but for the orderings of sets. -/
theorem aims_of_plan {limit : Nat} {w w' : Workspace} {root : Value} {set : ChangeSet} (hs : w.schema.Separate)
    (hroot : root.Canonical) (hsets : (root.erase w.schema.isId).SetsNodup)
    (hplan : planInsert limit w root = (.ok set, w') ∨ planUpdate limit w root = (.ok set, w') ∨
      planSave limit w root = (.ok set, w')) :
    ∃ type deletes head below inserts R, Plan.Starts w.schema limit w.roots.length root type deletes head ∧
      set = ⟨.save, type, some root, deletes ++ head :: inserts⟩ ∧
      w.schema.occurrences w.roots.length root = ⟨.root w.roots.length, root⟩ :: below ∧
      Inserts deletes.length [⟨.root w.roots.length, root⟩] below inserts ∧
      (∀ a ∈ set.actions, a.Aims w.schema w.roots.length (root.erase w.schema.isId)) ∧
      w'.Holds w.schema w.roots.length R ∧ R.Canonical ∧ R.unlabel = root.unlabel := by
  obtain ⟨type, deletes, head, inserts, d, hstarts, rfl, hinserts, hschema, hroots⟩ := starts_of_plan hplan
  have hnested : Value.Hidden.Nested (fun _ _ => false) w.schema.isId w.schema :=
    ⟨fun _ _ => Bool.false_le _, hs.spares⟩
  obtain ⟨hcanonical, hwalk⟩ := Plan.insertsBelow_of_root hnested hroot hinserts
  have hdistinct : ((root.erase fun _ _ => false).erase w.schema.isId).SetsNodup := by
    rwa [Value.erase_erase hnested.le]
  obtain ⟨hlabel, -, hinserts⟩ := hwalk.resolve_right fun hlost => hlost.1 hdistinct
  refine ⟨type, deletes, head, _, inserts, d.root, hstarts, rfl, Occurrence.all_eq .., hinserts, ?_,
    ⟨hschema, by simp [hroots]⟩, hcanonical, hlabel⟩
  show ∀ a ∈ deletes ++ head :: inserts, _
  rw [List.append_cons]
  refine List.forall_mem_append.2 ⟨hstarts.aims _, hinserts.aims hs.spares fun o ho => ?_⟩
  exact mem_occurrences_iff.1 (Occurrence.mem_all_of_mem_below ho)

/-- An execution of a plan that stores an aggregate succeeds if and only if the executor does not fail and each
identifier it makes up for an insert has a property to go to. The executor is then called for each action, and the
aggregate has got each identifier in the identifier property of the occurrence for which it was made up, where the last
one is read back; but for the orderings of sets, nothing else has changed. This takes that the elements of each set differ
in more than identifiers and orderings of sets. -/
theorem execute_exact (limit : Nat) (w w' : Workspace) (root : Value) (set : ChangeSet) (other : Option Schema)
    (executor : Executor σ) (s : σ) (hs : w.schema.Separate) (hroot : root.Canonical)
    (hsets : (root.erase w.schema.isId).SetsNodup) (ho : other.getD w.schema = w.schema)
    (hplan : planInsert limit w root = (.ok set, w') ∨ planUpdate limit w root = (.ok set, w') ∨
      planSave limit w root = (.ok set, w')) :
    (∃ type deletes head below inserts, Plan.Starts w.schema limit w.roots.length root type deletes head ∧
        set.actions = deletes ++ head :: inserts ∧
        w.schema.occurrences w.roots.length root = ⟨.root w.roots.length, root⟩ :: below ∧
        Inserts deletes.length [⟨.root w.roots.length, root⟩] below inserts) ∧
      ((execute other executor set w' s).answer = .ok () ↔ ∀ c ∈ calls other executor set w' s, c.Taken w.schema) ∧
      ((execute other executor set w' s).answer = .ok () →
        (calls other executor set w' s).map (·.action) = set.actions ∧
          ∃ v, (execute other executor set w' s).set.entity = some v ∧
            v.unlabel = ((calls other executor set w' s).foldl (Call.fill w.schema) root).unlabel ∧
            ∀ ls key, Call.lastKey? ls (calls other executor set w' s) = some key →
              w.schema.keyAlong v ls = some key) := by
  obtain ⟨type, deletes, head, below, inserts, R, hstarts, hset, hall, hinserts, haims, hholds, hR, hlabel⟩ :=
    aims_of_plan hs hroot hsets hplan
  have hactions : set.actions = deletes ++ head :: inserts := congrArg ChangeSet.actions hset
  refine ⟨⟨type, deletes, head, below, inserts, hstarts, hactions, hall, hinserts⟩, ?_⟩
  have hsame : R.erase w.schema.isId = root.erase w.schema.isId :=
    Value.erase_eq_of_le (fun _ _ => Bool.false_le _) hlabel
  have htype : (root.erase w.schema.isId).type? = some set.type := by
    rw [Value.type?_erase, hstarts.type?_eq, hset]
  generalize hr : run other executor.logged set.type [] set.actions none w' (s, []) = r
  obtain ⟨cs, hcs, hok, hdone⟩ := run_exact hs ho hsets htype haims hholds hR.hide hsame hr
  have hcalls : calls other executor set w' s = cs := by
    rw [calls, state_execute, hr, hcs, List.nil_append]
  obtain ⟨hanswer, hentity⟩ := execute_of_run (P := fun v => v.unlabel = (cs.foldl (Call.fill w.schema) root).unlabel ∧
      ∀ ls key, Call.lastKey? ls cs = some key → w.schema.keyAlong v ls = some key) set hr fun x hx => by
    obtain ⟨hmap, rfl, R', hw', hfills⟩ := hdone x hx
    have hhead : set.actions.any (·.isRoot) = true := by simp [hactions, hstarts.isRoot_head]
    refine ⟨.root w.roots.length, R', by rw [if_pos hhead], hw'.current rfl, ?_, fun ls key hkey => ?_⟩
    · exact hfills.unlabel_eq.trans (Call.unlabel_foldl_fill cs hlabel)
    · exact hfills.keyAlong_of_lastKey? (fun c hc => haims _ (hmap ▸ List.mem_map_of_mem hc)) hkey
  obtain ⟨hanswer', hset'⟩ := execute_logged set
  rw [← hanswer', ← hset', hcalls]
  refine ⟨hanswer.trans hok, fun h => ⟨?_, hentity h⟩⟩
  obtain ⟨x, hx⟩ := hanswer.1 h
  exact (hdone x hx).1

/-- The order, its items and one of its tags get identifiers. -/
theorem execute_exact_order :
    planInsert 1 (.empty Shop.entities) Shop.order = (.ok Shop.ordering, Shop.planned) ∧ Shop.entities.Separate ∧
      Shop.order.Canonical ∧ (Shop.order.erase Shop.entities.isId).SetsNodup ∧
      (execute none Scripted.executor Shop.ordering Shop.planned Shop.replies).answer = .ok () ∧
      ((calls none Scripted.executor Shop.ordering Shop.planned Shop.replies).filterMap Call.grant?).map (·.id) =
        [.int 1, .int 7, .int 8, .text "t"] ∧
      (calls none Scripted.executor Shop.ordering Shop.planned Shop.replies).map (·.action) = Shop.ordering.actions ∧
      ∃ v, (execute none Scripted.executor Shop.ordering Shop.planned Shop.replies).set.entity = some v ∧
        v.unlabel = ((calls none Scripted.executor Shop.ordering Shop.planned Shop.replies).foldl
          (Call.fill Shop.entities) Shop.order).unlabel ∧
        ∀ ls key, Call.lastKey? ls (calls none Scripted.executor Shop.ordering Shop.planned Shop.replies) = some key →
          Shop.entities.keyAlong v ls = some key := by
  have hs : Shop.entities.Separate := by decide
  have hroot : Shop.order.Canonical := by decide
  have hsets : (Shop.order.erase Shop.entities.isId).SetsNodup := by decide
  have hok : (execute none Scripted.executor Shop.ordering Shop.planned Shop.replies).answer = .ok () := by
    decide +kernel
  refine ⟨rfl, hs, hroot, hsets, hok, by decide +kernel, ?_⟩
  exact (execute_exact 1 (.empty Shop.entities) Shop.planned Shop.order Shop.ordering none Scripted.executor Shop.replies hs
    hroot hsets rfl (.inl rfl)).2.2 hok

end ChangeSet

end Aggregate
