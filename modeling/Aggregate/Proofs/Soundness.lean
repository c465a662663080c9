import Mathlib
import Aggregate.Proofs.Preorder
import Aggregate.Proofs.Saving

/-!
# Sound stores

What holds of all stores that planned change sets lead to, also those that failed half-way.

- `Store.Sound`: keys are unique, and each row below a root has a root row for its root identifier, at a path declared
  below the type of that row;
- `Store.Parts`: the deletes, the root action and the inserts of a change set that stores an aggregate;
- `Store.execute_storing`, `Store.execute_deletes`: executions of planned change sets, `Store.Outline.execute_cut` of
  their front parts;
- `Store.Reachable`, `Store.Reachable.sound`: reachable stores are sound.
-/

namespace Aggregate

variable {schema : Schema}

theorem Path.isRoot_iff {p : Path} : p.isRoot = true ↔ p = .root := by
  obtain ⟨segments⟩ := p
  simp [isRoot, root]

/-- A row without the value stored in it. -/
def Row.bare (r : Row) : Row := { r with value := .null }

namespace Store

variable {rows rows' : List Row} {r : Row} {type : String} {id : Value}

/-! ## Soundness -/

/-- The rows are told apart by their keys, and each is the row of a root or belongs to one. -/
structure Sound (schema : Schema) (rows : List Row) : Prop where
  nodup : (rows.map Row.key).Nodup
  root : ∀ r ∈ rows, r.isRoot = true → r.rootId = r.id ∧ r.parentId = none ∧ r.columns = []
  owned : ∀ r ∈ rows, r.isRoot = false → ∃ o ∈ rows, o.isRoot = true ∧ o.id = r.rootId ∧
    schema.Declares o.type .root r.path r.type

theorem Sound.nil : Sound schema [] := ⟨by simp, by simp, by simp⟩

theorem map_key_map_bare (rows : List Row) : (rows.map Row.bare).map Row.key = rows.map Row.key := by
  rw [List.map_map]
  rfl

/-- Whether rows are sound does not depend on the values stored. -/
theorem sound_map_bare : Sound schema (rows.map Row.bare) ↔ Sound schema rows := by
  have hkeys := map_key_map_bare rows
  constructor
  · rintro ⟨hnodup, hroot, howned⟩
    refine ⟨hkeys ▸ hnodup, fun r hr => hroot r.bare (List.mem_map_of_mem hr), fun r hr h => ?_⟩
    obtain ⟨o', ho', hrest⟩ := howned r.bare (List.mem_map_of_mem hr) h
    obtain ⟨o, ho, rfl⟩ := List.mem_map.1 ho'
    exact ⟨o, ho, hrest⟩
  · rintro ⟨hnodup, hroot, howned⟩
    refine ⟨hkeys ▸ hnodup, List.forall_mem_map.2 hroot, List.forall_mem_map.2 fun r hr h => ?_⟩
    obtain ⟨o, ho, hrest⟩ := howned r hr h
    exact ⟨o.bare, List.mem_map_of_mem ho, hrest⟩

theorem map_bare_updateFirst (chosen : Row → Bool) (v : Value) (rows : List Row) :
    (updateFirst chosen (fun r => { r with value := v }) rows).map Row.bare = rows.map Row.bare := by
  induction rows with
  | nil => rfl
  | cons r rest ih =>
    rw [updateFirst]
    split
    · rfl
    · rw [List.map_cons, List.map_cons, ih]

theorem mem_updateFirst {chosen : Row → Bool} {change : Row → Row} (h : r ∈ updateFirst chosen change rows) :
    r ∈ rows ∨ ∃ r' ∈ rows, chosen r' = true ∧ change r' = r := by
  induction rows with
  | nil => cases h
  | cons x rest ih =>
    rw [updateFirst] at h
    split at h
    · rename_i hx
      rcases List.mem_cons.1 h with rfl | h
      · exact .inr ⟨x, List.mem_cons_self, hx, rfl⟩
      · exact .inl (List.mem_cons_of_mem _ h)
    · rcases List.mem_cons.1 h with rfl | h
      · exact .inl List.mem_cons_self
      · exact (ih h).imp (List.mem_cons_of_mem _) fun ⟨r', hr', h⟩ => ⟨r', List.mem_cons_of_mem _ hr', h⟩

/-- There is a root row of this type with this identifier. -/
def HasRoot (type : String) (id : Value) (rows : List Row) : Prop := ∃ r ∈ rows, isRootRow type id r = true

instance : Decidable (HasRoot type id rows) := inferInstanceAs (Decidable (∃ r ∈ rows, isRootRow type id r = true))

theorem hasRoot_map_bare : HasRoot type id (rows.map Row.bare) ↔ HasRoot type id rows := by
  simp only [HasRoot, List.mem_map, exists_exists_and_eq_and]
  rfl

/-- Rows stay sound without those at some paths and at the paths declared below these. -/
theorem Sound.clear {s : Store} {ps : List DeclaredPath} (h : Sound schema s.rows) (hps : schema.Closed ps) :
    Sound schema (s.clear id ps).rows := by
  have hsub : (s.clear id ps).rows.Sublist s.rows := List.filter_sublist
  refine ⟨h.nodup.sublist (hsub.map _), fun r hr => h.root r (hsub.subset hr), fun r hr hroot => ?_⟩
  obtain ⟨hr, hkept⟩ := mem_clear.1 hr
  obtain ⟨o, ho, horoot, hid, hdeclares⟩ := h.owned r hr hroot
  refine ⟨o, mem_clear.2 ⟨ho, ?_⟩, horoot, hid, hdeclares⟩
  rintro ⟨hoid, p, hp, htype, hpath⟩
  have hproot : p.path = .root := hpath ▸ Path.isRoot_iff.1 horoot
  refine hkept ⟨?_, _, hps p hp r.path r.type (hproot ▸ htype ▸ hdeclares), rfl, rfl⟩
  rw [← hid, ← (h.root o ho horoot).1, hoid]

theorem Sound.append (h : Sound schema rows) (hnew : r.key ∉ rows.map Row.key)
    (hroot : r.isRoot = true → r.rootId = r.id ∧ r.parentId = none ∧ r.columns = [])
    (howned : r.isRoot = false → ∃ o ∈ rows, o.isRoot = true ∧ o.id = r.rootId ∧
      schema.Declares o.type .root r.path r.type) : Sound schema (rows ++ [r]) := by
  refine ⟨Row.nodup_keys_append h.nodup hnew, ?_, ?_⟩
  · exact List.forall_mem_append.2 ⟨h.root, List.forall_mem_singleton.2 hroot⟩
  · refine List.forall_mem_append.2 ⟨fun x hx hxr => ?_, List.forall_mem_singleton.2 fun hr => ?_⟩
    · exact (h.owned x hx hxr).imp fun o ho => ⟨List.mem_append_left _ ho.1, ho.2⟩
    · exact (howned hr).imp fun o ho => ⟨List.mem_append_left _ ho.1, ho.2⟩

theorem RootStep.length_le {n : Nat} {R : Value} {head : Action} {id? : Option Value}
    (h : RootStep schema n type R id head id? rows rows') : rows.length ≤ rows'.length := by
  cases h with
  | insert _ _ _ => simp
  | @update v _ _ _ => simpa using (congrArg List.length (map_bare_updateFirst (isRootRow type id) v rows)).ge

theorem Grows.length_le {inserts : List Action} (h : Grows inserts id rows rows') : rows.length ≤ rows'.length := by
  induction h with
  | refl => exact Nat.le_refl _
  | step _ _ _ ih =>
    rw [List.length_append]
    exact Nat.le_add_right_of_le ih

theorem Saves.length_le {n : Nat} {R : Value} {head : Action} {inserts : List Action}
    (h : Saves schema n type R head inserts rows rows') : rows.length ≤ rows'.length := by
  obtain ⟨id, id?, stored, hstep, hgrows⟩ := h
  exact hstep.length_le.trans hgrows.length_le

theorem RootStep.sound {n : Nat} {R : Value} {head : Action} {id? : Option Value}
    (h : RootStep schema n type R id head id? rows rows') (hr : Sound schema rows) (hlen : rows'.length < 2 ^ 64) :
    Sound schema rows' ∧ HasRoot type id rows' := by
  cases h with
  | @insert _ v _ _ _ hfresh =>
    rw [List.length_append] at hlen
    refine ⟨hr.append (hfresh (by omega)) (fun _ => ⟨rfl, rfl, rfl⟩) nofun, _, List.mem_append_right _
      List.mem_cons_self, isRootRow_iff.2 ⟨rfl, rfl, rfl⟩⟩
  | @update v _ _ hany =>
    have hbare := map_bare_updateFirst (isRootRow type id) v rows
    exact ⟨sound_map_bare.1 (hbare ▸ sound_map_bare.2 hr), hasRoot_map_bare.1 (hbare ▸ hasRoot_map_bare.2 hany)⟩

theorem Grows.sound {inserts : List Action} (h : Grows inserts id rows rows')
    (hinserts : ∀ a ∈ inserts, ∀ node, a.address? = some node → schema.Declares type .root node.path a.type)
    (hr : Sound schema rows) (hroot : HasRoot type id rows) (hlen : rows'.length < 2 ^ 64) :
    Sound schema rows' ∧ HasRoot type id rows' := by
  induction h with
  | refl => exact ⟨hr, hroot⟩
  | @step rows' a row _ ha hadds ih =>
    rw [List.length_append] at hlen
    obtain ⟨hsound, o, ho, hoid⟩ := ih (by omega)
    obtain ⟨rfl, horoot, rfl⟩ := isRootRow_iff.1 hoid
    obtain ⟨node, hnode, hpath⟩ := hadds.path_eq
    have hdeclares : schema.Declares o.type .root row.path row.type := by
      rw [hpath, hadds.type_eq]
      exact hinserts a ha node hnode
    refine ⟨hsound.append (hadds.fresh (by omega)) (fun hroot => ?_) fun _ => ?_, o, List.mem_append_left _ ho, hoid⟩
    · rw [Row.isRoot, hdeclares.isRoot_eq] at hroot
      cases hroot
    · exact ⟨o, ho, horoot, hadds.rootId_eq.symm, hdeclares⟩

/-- Storing an aggregate at declared paths keeps rows sound. -/
theorem Saves.sound {n : Nat} {R : Value} {head : Action} {inserts : List Action}
    (h : Saves schema n type R head inserts rows rows')
    (hinserts : ∀ a ∈ inserts, ∀ node, a.address? = some node → schema.Declares type .root node.path a.type)
    (hr : Sound schema rows) (hlen : rows'.length < 2 ^ 64) : Sound schema rows' := by
  obtain ⟨id, id?, stored, hstep, hgrows⟩ := h
  have hle := hgrows.length_le
  obtain ⟨hstored, hroot⟩ := hstep.sound hr (by omega)
  exact (hgrows.sound hinserts hstored hroot hlen).1

end Store

/-! ## Plans -/

namespace Plan

variable {limit n : Nat} {root : Value} {type : String} {deletes : List Action} {head : Action} {id : Value}

/-- A root has an identifier if it has a key that is not `null`. -/
theorem rootId_eq_ok (ht : root.type? = some type) :
    rootId schema root = .ok id ↔ schema.key? root = some (type, id) ∧ id ≠ .null := by
  simp only [rootId, Except.bind_eq_ok, Except.mapError_eq_ok, Schema.entityOf_eq_ok, EntityType.requiredId_eq_ok,
    Schema.typeOf?, ht, Option.bind_some]
  constructor
  · rintro ⟨e, he, name, hname, x, hread, h⟩
    split at h
    · cases h
    · rename_i hnull
      cases h
      refine ⟨Schema.key?_eq_some.2 ⟨ht, name, ?_, Schema.field_of_read hread⟩, by rwa [Value.isNull_iff] at hnull⟩
      rw [Schema.idProperty?, he, Option.bind_some, hname]
  · rintro ⟨hkey, hnull⟩
    obtain ⟨name, hname, hread⟩ := Schema.read_of_key? hkey
    obtain ⟨e, he, hename⟩ := Option.bind_eq_some_iff.1 hname
    refine ⟨e, he, name, hename, id, hread, ?_⟩
    rw [if_neg (by rwa [Value.isNull_iff])]
    rfl

/-- The deletes that a plan begins with: none before an insert of the root; before an update those at all paths declared
below its type. -/
inductive Clears (schema : Schema) (n : Nat) (root : Value) (type : String) : Action → Value → List DeclaredPath → Prop
  | insert {id : Value} : Clears schema n root type (.insertRoot type (.root n) none) id []
  | update {id : Value} {ps : List DeclaredPath} : schema.key? root = some (type, id) → id ≠ .null →
      (∀ p, p ∈ ps ↔ schema.Declares type .root p.path p.target) → schema.TopDown ps.reverse →
      Clears schema n root type (.updateRoot type (.root n)) id ps

theorem Starts.clears (h : Starts schema limit n root type deletes head) :
    ∃ id ps, deletes = (ps.map fun p => .delete p.target id p.path) ∧ Clears schema n root type head id ps := by
  cases h with
  | insert _ => exact ⟨.null, [], rfl, .insert⟩
  | update ht hid hdeletes =>
    obtain ⟨declared, hdeclared, rfl⟩ := deletesBelow_eq_ok.1 hdeletes
    obtain ⟨hkey, hnull⟩ := (rootId_eq_ok ht).1 hid
    refine ⟨_, declared.reverse, rfl, .update hkey hnull (fun p => ?_) ?_⟩
    · rw [List.mem_reverse, Schema.mem_declared hdeclared]
    · rw [List.reverse_reverse]
      exact (Schema.topDown_declared hdeclared).2

theorem Clears.head_eq {ps : List DeclaredPath} (h : Clears schema n root type head id ps) :
    head = .insertRoot type (.root n) none ∨ head = .updateRoot type (.root n) := by
  cases h with
  | insert => exact .inl rfl
  | update _ _ _ _ => exact .inr rfl

theorem Clears.address?_head {ps : List DeclaredPath} (h : Clears schema n root type head id ps) :
    head.address? = some (.root n) := by
  cases h <;> rfl

theorem Clears.address?_answered {ps : List DeclaredPath} (h : Clears schema n root type head id ps) (id? : Option Value) :
    (head.answered id?).address? = some (.root n) := by
  rw [Action.address?_answered, h.address?_head]

theorem Clears.type_head {ps : List DeclaredPath} (h : Clears schema n root type head id ps) : head.type = type := by
  cases h <;> rfl

theorem Clears.closed {ps qs : List DeclaredPath} (h : Clears schema n root type head id ps) (hq : qs <+: ps) :
    schema.Closed qs := by
  cases h with
  | insert =>
    cases List.prefix_nil.1 hq
    exact nofun
  | update _ _ _ htop => exact htop.closed (by rwa [List.reverse_reverse])

end Plan

/-! ## Executions -/

namespace Store

open ChangeSet (planInsert planUpdate planSave planDelete planDelete_eq_ok execute)

variable {other : Option Schema} {limit n : Nat} {w w₀ w₁ : Workspace} {s : Store} {R root id : Value}
  {type : String} {head : Action} {inserts : List Action} {ps : List DeclaredPath} {set : ChangeSet}

section Execute

variable {J : List Action → List Action → Value → Value → List Row → Prop} {K : List Row → Prop}

/-- What holds of the rows after executing a change set that stores an aggregate, also if it fails, and of the aggregate
if it succeeds: after the deletes come the root action and the inserts. -/
theorem execute_storing (ho : other.getD schema = schema) (hw : w.Holds schema n R) (ht : R.type? = some type)
    (hs : s.schema = schema) (hhead : head = .insertRoot type (.root n) none ∨ head = .updateRoot type (.root n))
    (hinserts : ∀ a ∈ inserts, a.Avoids schema n type)
    (hset : set.type = type ∧ set.actions = (ps.map fun p => .delete p.target id p.path) ++ head :: inserts)
    (hbegins : Begins schema n type R head inserts (ps.map fun p => .delete p.target id p.path) (s.clear id ps).rows J K)
    (hcontinues : Continues schema n type inserts J K) (hK : K (s.clear id ps).rows) :
    (execute other executor set w s).state.schema = schema ∧ K (execute other executor set w s).state.rows ∧
      ((execute other executor set w s).answer = .ok () → ∃ v, (execute other executor set w s).set.entity = some v ∧
        ∃ executed id', schema.key? v = some (type, id') ∧
          J executed [] id' v (execute other executor set w s).state.rows) := by
  rw [ChangeSet.state_execute]
  generalize hr : ChangeSet.run other executor set.type [] set.actions none w s = r
  have hrest := hr
  rw [hset.1, hset.2, run_deletes] at hrest
  obtain ⟨hschema, hrows, hdone⟩ := run_storing (s := s.clear id ps) ht hhead hinserts hbegins hcontinues hK ho hw hs hrest
  refine ⟨hschema, hrows, (ChangeSet.execute_of_run set hr fun x hx => ?_).2⟩
  obtain ⟨hroot, executed, id', R', hw', hrooted, hJ⟩ := hdone x hx
  exact ⟨.root n, R', hroot, hw'.current rfl, executed, id', hrooted.key_eq, hJ⟩

end Execute

/-- Executing deletes is never refused; it deletes their rows. -/
theorem execute_deletes (other : Option Schema) (w : Workspace) (s : Store)
    (hset : set.actions = ps.map fun p => .delete p.target id p.path) :
    (execute other executor set w s).answer = .ok () ∧ (execute other executor set w s).state = s.clear id ps := by
  have hrun : ChangeSet.run other executor set.type [] set.actions none w s =
      ChangeSet.run other executor set.type ([] ++ ps.map fun p => .delete p.target id p.path) [] none w (s.clear id ps) := by
    rw [← run_deletes, hset, List.append_nil]
  rw [execute, hrun, ChangeSet.run]
  exact ⟨rfl, rfl⟩

/-! ## Plans of change sets -/

/-- A change set that stores an aggregate, as planned. The root of the aggregate has a number and is as planning left
it. -/
def Planned (schema : Schema) (root : Value) (set : ChangeSet) (n : Nat) (R : Value) : Prop :=
  ∃ limit w₀ w₁, w₀.schema = schema ∧ (planInsert limit w₀ root = (.ok set, w₁) ∨
    planUpdate limit w₀ root = (.ok set, w₁) ∨ planSave limit w₀ root = (.ok set, w₁)) ∧ w₀.roots.length = n ∧ w₁.root n = R

/-- A change set that stores an aggregate in which all entities are of the declared types. -/
structure Plans (schema : Schema) (root : Value) (set : ChangeSet) (n : Nat) (R : Value) : Prop where
  canonical : root.Canonical
  conforms : schema.Conforms root
  planned : Planned schema root set n R

/-- The parts of a change set that stores an aggregate. -/
structure Outline (schema : Schema) (root : Value) (set : ChangeSet) (n : Nat) (R : Value) (type : String) (id : Value)
    (ps : List DeclaredPath) (head : Action) (inserts : List Action) : Prop where
  clears : Plan.Clears schema n root type head id ps
  set_eq : set = ⟨.save, type, some root, (ps.map fun p => .delete p.target id p.path) ++ head :: inserts⟩
  root_type_eq : root.type? = some type
  type_eq : R.type? = some type
  key_eq : schema.key? R = schema.key? root
  avoids : ∀ a ∈ inserts, a.Avoids schema n type

theorem Planned.outline (hs : schema.Separate) (h : Planned schema root set n R) :
    ∃ limit d type id ps head inserts writes, Outline schema root set n R type id ps head inserts ∧
      (Plan.insertsBelow schema limit limit (.root n) ps.length (ps.length + 1)).Runs ⟨root, writes⟩ inserts d ∧
      d.root = R := by
  obtain ⟨limit, w₀, w₁, rfl, hplan, rfl, rfl⟩ := h
  obtain ⟨type, deletes, head, inserts, d, hstarts, rfl, hinserts, -, hroots⟩ := ChangeSet.starts_of_plan hplan
  obtain ⟨id, ps, rfl, hclears⟩ := hstarts.clears
  have hR : w₁.root w₀.roots.length = d.root := by simp [Workspace.root, hroots]
  obtain ⟨ht', hkey, havoids⟩ := Plan.key?_of_insertsBelow hs hstarts.type?_eq hinserts
  rw [List.length_map] at hinserts
  exact ⟨limit, d, type, id, ps, head, inserts, _,
    ⟨hclears, rfl, hstarts.type?_eq, hR ▸ ht', hR ▸ hkey, havoids⟩, hinserts, hR.symm⟩

/-- The parts of a change set that stores an aggregate in which all entities are of the declared types. -/
structure Parts (schema : Schema) (root : Value) (set : ChangeSet) (n : Nat) (R : Value) (type : String) (id : Value)
    (ps : List DeclaredPath) (head : Action) (inserts : List Action) : Prop
    extends Outline schema root set n R type id ps head inserts where
  canonical : R.Canonical
  conforms : schema.Conforms R
  typed : ∀ a ∈ inserts, ∀ node, a.address? = some node → node.isRoot = false ∧ schema.Typed n type node a.type
  ordered : Ordered ps.length [.root n] inserts
  /-- The inserts are for what lies below the root, unless a set has lost elements. -/
  inserts_or_lost : R.erase schema.isId = root.erase schema.isId ∧
      Inserts ps.length [⟨.root n, root⟩] (Occurrence.below schema ⟨.root n, root⟩) inserts ∨
    Value.Lost schema.isId (root.erase schema.isId) ([] :: places inserts) (R.erase schema.isId)

theorem Outline.set_parts (h : Outline schema root set n R type id ps head inserts) :
    set.type = type ∧ set.actions = (ps.map fun p => .delete p.target id p.path) ++ head :: inserts := by
  rw [h.set_eq]
  exact ⟨rfl, rfl⟩

/-- A root with an identifier keeps it. -/
theorem Outline.id_eq {id₀ id' : Value} {id? : Option Value} {rows rows' : List Row}
    (h : Outline schema root set n R type id₀ ps head inserts)
    (hkey : schema.key? root = some (type, id)) (hid : id ≠ .null)
    (hstep : RootStep schema n type R id' head id? rows rows') : id' = id := by
  have hkeyR := h.key_eq.trans hkey
  cases hstep with
  | insert hnew _ _ =>
    rcases hnew with ⟨hnull, -⟩ | ⟨hsome, -⟩
    · cases hnull.symm.trans hkeyR
      exact absurd rfl hid
    · cases hsome.symm.trans hkeyR
      rfl
  | update hsome _ =>
    cases hsome.symm.trans hkeyR
    rfl

theorem Outline.parts {writes : List Write} {d : Draft} (hs : schema.Separate)
    (h : Outline schema root set n d.root type id ps head inserts) (hcanonical : root.Canonical)
    (hconforms : schema.Conforms root) (hinserts :
      (Plan.insertsBelow schema limit limit (.root n) ps.length (ps.length + 1)).Runs ⟨root, writes⟩ inserts d) :
    Parts schema root set n d.root type id ps head inserts := by
  obtain ⟨hcanonical', hconforms', htyped⟩ := Plan.typed_of_insertsBelow hcanonical hconforms h.root_type_eq hinserts
  obtain ⟨-, hwalk⟩ := Plan.insertsBelow_of_root ⟨le_rfl, hs.spares⟩ hcanonical hinserts
  exact ⟨h, hcanonical', hconforms', htyped, Plan.ordered_of_root hinserts, hwalk.imp_left fun h => ⟨h.1, h.2.2⟩⟩

theorem Plans.parts (hs : schema.Separate) (h : Plans schema root set n R) :
    ∃ type id ps head inserts, Parts schema root set n R type id ps head inserts := by
  obtain ⟨limit, d, type, id, ps, head, inserts, writes, houtline, hinserts, rfl⟩ := h.planned.outline hs
  exact ⟨type, id, ps, head, inserts, houtline.parts hs h.canonical h.conforms hinserts⟩

/-- The root has an identifier once the root action of its plan is carried out. -/
theorem Parts.ne_null {id₀ : Value} {id? : Option Value} {rows rows' : List Row}
    (h : Parts schema root set n R type id₀ ps head inserts)
    (hstep : RootStep schema n type R id head id? rows rows') : id ≠ .null := by
  have hclears := h.clears
  cases hstep with
  | insert _ hnull _ => exact hnull
  | update hkey _ =>
    cases hclears with
    | update hkey' hnull _ _ =>
      rw [← h.key_eq, hkey] at hkey'
      cases hkey'
      exact hnull

/-- The root action writes an identifier into the root only. -/
theorem Parts.admits {id₀ R' : Value} {id? : Option Value} (h : Parts schema root set n R type id₀ ps head inserts)
    (hs : schema.Separate) (hR : BackFills schema (head.answered id?) R R') : schema.Admits type R' := by
  refine Schema.Admits.backFills ⟨h.canonical.hide, h.conforms, h.type_eq⟩ hs (fun node hn => ?_) hR
  rw [h.clears.address?_answered] at hn
  cases hn
  trivial

/-! ## Executions cut off -/

/-- After some deletes of a change set that stores an aggregate. -/
theorem Outline.execute_clears (h : Outline schema root set n R type id ps head inserts) (other : Option Schema)
    (w : Workspace) (s : Store) {k : Nat} (hk : k ≤ ps.length) :
    (execute other executor { set with actions := set.actions.take k } w s).state = s.clear id (ps.take k) := by
  refine (execute_deletes other w s ?_).2
  rw [h.set_parts.2, List.take_append_of_le_length (by simpa using hk), List.map_take]

section Cut

variable {J : List Action → List Action → Value → Value → List Row → Prop} {K : List Row → Prop}

/-- What holds of the rows after some actions of a change set that stores an aggregate, if these are not deletes only. -/
theorem Outline.execute_cut (h : Outline schema root set n R type id ps head inserts) (hw : w.Holds schema n R)
    (ho : other.getD schema = schema) (hs : s.schema = schema) {k : Nat} (hk : ps.length < k)
    (hclear : K (s.clear id ps).rows)
    (hbegins : ∀ pending, pending <+: inserts → Begins schema n type R head pending
      (ps.map fun p => .delete p.target id p.path) (s.clear id ps).rows J K)
    (hcontinues : Continues schema n type inserts J K) :
    (execute other executor { set with actions := set.actions.take k } w s).state.schema = schema ∧
      K (execute other executor { set with actions := set.actions.take k } w s).state.rows := by
  obtain ⟨htype, hactions⟩ := h.set_parts
  obtain ⟨j, rfl⟩ := Nat.exists_eq_add_of_lt hk
  have hcut : ({ set with actions := set.actions.take (ps.length + j + 1) } : ChangeSet).type = type ∧
      ({ set with actions := set.actions.take (ps.length + j + 1) } : ChangeSet).actions =
        (ps.map fun p => .delete p.target id p.path) ++ head :: inserts.take j := by
    refine ⟨htype, ?_⟩
    rw [hactions, Nat.add_assoc, ← List.length_map (f := fun p : DeclaredPath => Action.delete p.target id p.path),
      List.take_length_add_append, List.take_succ_cons]
  obtain ⟨hschema, hrows, -⟩ := execute_storing ho hw h.type_eq hs h.clears.head_eq
    (fun a ha => h.avoids a (List.mem_of_mem_take ha)) hcut (hbegins _ (List.take_prefix ..))
    (fun executed a rest id R w s id? s' hJ ha => hcontinues executed a rest id R w s id? s' hJ (List.mem_of_mem_take ha))
    hclear
  exact ⟨hschema, hrows⟩

/-- The rows after some actions of a change set that stores an aggregate. -/
theorem Outline.rows_of_cut (h : Outline schema root set n R type id ps head inserts) (hw : w.Holds schema n R)
    (ho : other.getD schema = schema) (hs : s.schema = schema) (k : Nat) :
    (execute other executor { set with actions := set.actions.take k } w s).state.schema = schema ∧
      ((execute other executor { set with actions := set.actions.take k } w s).state.rows =
          (s.clear id (ps.take k)).rows ∨
        ps.length < k ∧ Saves schema n type R head inserts (s.clear id ps).rows
          (execute other executor { set with actions := set.actions.take k } w s).state.rows) := by
  rcases Nat.lt_or_ge ps.length k with hk | hk
  · rw [List.take_of_length_le hk.le]
    exact h.execute_cut hw ho hs hk (K := fun rows => rows = (s.clear id ps).rows ∨
        ps.length < k ∧ Saves schema n type R head inserts (s.clear id ps).rows rows) (.inl rfl)
      (fun _ _ => begins_saves fun _ hsaves => .inr ⟨hk, hsaves⟩)
      (continues_saves (fun _ hsaves => .inr ⟨hk, hsaves⟩) h.avoids)
  · rw [h.execute_clears other w s hk]
    exact ⟨hs, .inl rfl⟩

end Cut

/-! ## Reachable stores -/

/-- A store between two actions of a change set that stores an aggregate, or once the change set is carried out or
stopped by a failure. The change set is executed in any workspace in which its aggregate is as planning left it. -/
inductive Stores (schema : Schema) (root : Value) (s : Store) : Store → Prop
  | intro {set : ChangeSet} {n : Nat} {R : Value} {w : Workspace} {other : Option Schema} (k : Nat) :
    Planned schema root set n R → w.Holds schema n R → other.getD schema = schema →
      Stores schema root s (execute other executor { set with actions := set.actions.take k } w s).state

/-- A store between two actions of a change set that deletes an aggregate, or once it is carried out. -/
inductive Deletes (schema : Schema) (type : String) (id : Value) (s : Store) : Store → Prop
  | intro {limit : Nat} {entity : Option Value} {set : ChangeSet} {w : Workspace} {other : Option Schema} (k : Nat) :
    planDelete limit schema type id entity = .ok set →
      Deletes schema type id s (execute other executor { set with actions := set.actions.take k } w s).state

/-- The stores that executing change sets leads to, each change set once, for aggregates in which all entities are of the
declared types. No store has as many rows as there are numbers for their identifiers. -/
inductive Reachable (schema : Schema) : Store → Prop
  | empty : Reachable schema (.empty schema)
  | store {s s' : Store} {root : Value} : Reachable schema s → root.Canonical → schema.Conforms root →
      Stores schema root s s' → s'.rows.length < 2 ^ 64 → Reachable schema s'
  | delete {s s' : Store} {type : String} {id : Value} : Reachable schema s → Deletes schema type id s s' →
      Reachable schema s'

/-- Deletes at some declared paths, with each path those below it. -/
theorem Deletes.clear {s' : Store} (h : Deletes schema type id s s') :
    ∃ qs, schema.Closed qs ∧ (∀ p ∈ qs, p = ⟨.root, type⟩ ∨ schema.Declares type .root p.path p.target) ∧
      s' = s.clear id qs := by
  obtain ⟨k, hplan⟩ := h
  obtain ⟨declared, hdeclared, rfl⟩ := planDelete_eq_ok.1 hplan
  have htop := Schema.topDown_declared hdeclared
  refine ⟨(declared.reverse ++ [(⟨.root, type⟩ : DeclaredPath)]).take k, ?_, fun p hp => ?_,
    (execute_deletes _ _ s ?_).2⟩
  · refine htop.closed ?_
    rw [List.reverse_cons]
    exact List.take_prefix ..
  · rcases List.mem_append.1 (List.mem_of_mem_take hp) with hp | hp
    · exact .inr ((Schema.mem_declared hdeclared p).1 (List.mem_reverse.1 hp))
    · exact .inl (List.mem_singleton.1 hp)
  · rw [List.map_take]

/-- Reachable stores are sound. -/
theorem Reachable.sound (hs : schema.Separate) (h : Reachable schema s) : s.schema = schema ∧ Sound schema s.rows := by
  induction h with
  | empty => exact ⟨rfl, .nil⟩
  | @store s s' root _ hcanonical hconforms hstores hlen ih =>
    obtain ⟨hschema, hsound⟩ := ih
    obtain ⟨k, hplanned, hw, ho⟩ := hstores
    obtain ⟨type, id, ps, head, inserts, h⟩ := Plans.parts hs ⟨hcanonical, hconforms, hplanned⟩
    obtain ⟨hschema', hrows | ⟨-, hsaves⟩⟩ := h.rows_of_cut hw ho hschema k
    · exact ⟨hschema', hrows ▸ hsound.clear (h.clears.closed (List.take_prefix ..))⟩
    · exact ⟨hschema', hsaves.sound (fun a ha node hnode => (h.typed a ha node hnode).2.declares
        (h.typed a ha node hnode).1) (hsound.clear (h.clears.closed List.prefix_rfl)) hlen⟩
  | delete _ hdeletes ih =>
    obtain ⟨qs, hclosed, -, rfl⟩ := hdeletes.clear
    exact ⟨ih.1, ih.2.clear hclosed⟩

end Store

/-! ## A shop's store -/

namespace Shop

/-- A store with the order. -/
def stored : Store :=
  (ChangeSet.execute none Store.executor (changes (ChangeSet.planInsert 1 (.empty entities) order)) planned
    (.empty entities)).state

theorem planned_order : Store.Planned entities order (changes (ChangeSet.planInsert 1 (.empty entities) order)) 0
    (planned.root 0) :=
  ⟨1, .empty entities, planned, rfl, .inl rfl, rfl, rfl⟩

theorem conforms_order : entities.Conforms order := Schema.conforms_of_everywhere (by decide) (by decide)

/-- The store with the order is reachable. -/
theorem reachable_stored : Store.Reachable entities stored :=
  .store .empty (by decide) conforms_order (.intro 5 planned_order ⟨rfl, rfl⟩ (show none.getD entities = entities from rfl))
    (by decide +kernel)

end Shop

end Aggregate
