import Mathlib
import Aggregate.Proofs.Replanning

/-!
# Updates and inserts

An update is made of the deletes for the declared paths and of what an insert of the same root would be, with the root
updated in place of inserted.

- `Edit.alike_children`, `Plan.alike_insertsBelow`: looking up addresses and planning inserts do the same whatever the
  number of the aggregate and the positions in the plan are, also where they fail;
- `Plan.runs_insert_of_update`, `Plan.runs_update_of_insert`: an update against an insert of the same root;
- `Plan.save_of_new`, `Plan.save_of_not_new`: an aggregate whose root has no identifier yet is inserted, all others are
  updated;
- `Plan.update_exact`: all of it for aggregates that are added to workspaces.
-/

namespace Aggregate

variable {schema : Schema}

/-! ## The aggregate under another number -/

namespace Address

variable {R : Value}

/-- What is read at an address does not depend on the number of the aggregate. -/
theorem alike_current (m : Nat) (node : Address) :
    Except.Alike Eq (node.current schema R) ((node.moved m).current schema R) := by
  induction node with
  | root n => exact .ok rfl
  | child parent relation strategy ih =>
    by_cases hs : strategy.Plain
    · rw [moved, current_child_eq hs, current_child_eq hs]
      apply ih.bind
      rintro holder _ rfl
      apply ((Except.Alike.refl (schema.read holder relation.property.name)).mapError _ _).bind
      rintro container _ rfl
      exact (Except.Alike.refl _).mapError _ _
    · cases strategy with
      | known v => exact .ok rfl
      | _ => exact absurd trivial hs

/-- What assigning at an address makes of the root does not depend on the number of the aggregate. -/
theorem alike_assign (m : Nat) (node : Address) (x : Value) :
    Except.Alike Eq (node.assign schema R x) ((node.moved m).assign schema R x) := by
  induction node generalizing x with
  | root n => exact .ok rfl
  | child parent relation strategy ih =>
    have hrebuilt : Except.Alike Eq (rebuilt schema R parent relation strategy x)
        (rebuilt schema R (parent.moved m) relation strategy x) := by
      unfold rebuilt
      apply (alike_current m parent).bind
      rintro holder _ rfl
      apply ((Except.Alike.refl (schema.read holder relation.property.name)).mapError _ _).bind
      rintro container _ rfl
      apply ((Except.Alike.refl (strategy.rebuild container x)).mapError _ _).bind
      rintro inner _ rfl
      exact .ok rfl
    rw [moved, assign, assign]
    apply hrebuilt.bind
    rintro ⟨holder, inner⟩ _ rfl
    apply ((Except.Alike.refl (schema.write holder relation.property.name inner)).mapError _ _).bind
    rintro written _ rfl
    exact ih written

theorem columns_moved (m : Nat) (node : Address) : (node.moved m).columns = node.columns := by
  cases node <;> rfl

end Address

/-! ## Looking up addresses -/

/-- Drafts of the same root, whatever was written so far. -/
def Draft.SameRoot (d d' : Draft) : Prop := d.root = d'.root

namespace Edit

open ExceptT (Alike)

variable {α β γ δ ε ε' : Type} {P : α → β → Prop}

theorem alike_ofExcept {a : Except δ α} {b : Except γ β} (h : Except.Alike P a b) (f : δ → ε) (g : γ → ε') :
    Alike Draft.SameRoot P (ofExcept f a) (ofExcept g b) :=
  fun _ _ hroot => ⟨h.mapError f g, hroot⟩

theorem alike_wrapError {a : Edit δ α} {b : Edit γ β} (h : Alike Draft.SameRoot P a b) (f : δ → ε) (g : γ → ε') :
    Alike Draft.SameRoot P (a.wrapError f) (b.wrapError g) := by
  intro d d' hroot
  obtain ⟨hends, hroot⟩ := h d d' hroot
  exact ⟨hends.mapError f g, hroot⟩

variable (m : Nat) (node : Address)

theorem alike_value : Alike Draft.SameRoot Eq (value schema node) (value schema (node.moved m)) := by
  intro d d' hroot
  refine ⟨?_, hroot⟩
  show Except.Alike Eq (node.current schema d.root) ((node.moved m).current schema d'.root)
  rw [show d'.root = d.root from hroot.symm]
  exact Address.alike_current m node

theorem alike_record (xs ys : List Write) :
    Alike Draft.SameRoot Eq (record xs : Edit ε Unit) (record ys : Edit ε' Unit) :=
  fun _ _ hroot => ⟨.ok rfl, hroot⟩

theorem alike_assign (x : Value) : Alike Draft.SameRoot Eq (assign schema node x) (assign schema (node.moved m) x) := by
  intro d d' hroot
  have hends : Except.Alike Eq (node.assign schema d.root x) ((node.moved m).assign schema d.root x) :=
    Address.alike_assign m node x
  unfold assign
  rw [show d'.root = d.root from hroot.symm]
  generalize node.assign schema d.root x = a at hends
  generalize (node.moved m).assign schema d.root x = b at hends
  cases hends with
  | ok h => exact ⟨.ok rfl, h⟩
  | error => exact ⟨.error, rfl⟩

theorem alike_settle (holder : Value) (relation : Relation) (x : Value) :
    Alike Draft.SameRoot Eq (settle schema node holder relation x) (settle schema (node.moved m) holder relation x) := by
  unfold settle
  apply (alike_record _ _).bind
  intro _ _ _
  apply (alike_ofExcept (.refl _) _ _).bind
  rintro written _ rfl
  exact alike_assign m node written

/-- The addresses of what an entity holds in one property, in the aggregate under another number. -/
theorem alike_childrenBy (owner : String) (p : Property) :
    Alike Draft.SameRoot (fun xs ys => ys = xs.map (Address.moved m)) (childrenBy schema node owner p)
      (childrenBy schema (node.moved m) owner p) := by
  unfold childrenBy
  rw [Address.path_moved]
  apply (alike_value m node).bind
  rintro holder _ rfl
  apply (alike_ofExcept ((Except.Alike.refl (schema.read holder p.name)).mapError _ _) _ _).bind
  rintro held _ rfl
  cases p.strategies held with
  | none => exact .throw _ _
  | some strategies =>
    have hmoved : Alike Draft.SameRoot (fun xs ys => ys = xs.map (Address.moved m))
        (pure (strategies.map (.child node ⟨owner, p, node.path.child p.name⟩)) : Edit ResolutionError (List Address))
        (pure (strategies.map (.child (node.moved m) ⟨owner, p, node.path.child p.name⟩)) :
          Edit ResolutionError (List Address)) := by
      apply Alike.pure
      rw [List.map_map]
      rfl
    cases p.settled? held with
    | none => exact hmoved
    | some x => exact (alike_settle m node holder _ x).bind fun _ _ _ => hmoved

theorem alike_childrenAlong (owner : String) (rs : List Reference) :
    Alike Draft.SameRoot (fun xs ys => ys = xs.map (Address.moved m)) (childrenAlong schema node owner rs)
      (childrenAlong schema (node.moved m) owner rs) := by
  induction rs with
  | nil => exact .pure rfl
  | cons r rest ih =>
    apply (alike_childrenBy m node owner r.property).bind
    rintro here _ rfl
    apply ih.bind
    rintro further _ rfl
    apply Alike.pure
    rw [List.map_append]

/-- The addresses of what an entity holds, in the aggregate under another number. -/
theorem alike_children :
    Alike Draft.SameRoot (fun xs ys => ys = xs.map (Address.moved m)) (children schema node)
      (children schema (node.moved m)) := by
  unfold children
  apply (alike_value m node).bind
  rintro v _ rfl
  apply (alike_ofExcept (.refl _) _ _).bind
  rintro e _ rfl
  exact alike_childrenAlong m node e.name e.references

end Edit

/-! ## Planning inserts -/

/-- The same action in the aggregate under another number, when `k` more actions come before it in the plan. -/
def Action.later (k m : Nat) : Action → Action
  | insertRoot type address id => insertRoot type (address.moved m) id
  | updateRoot type address => updateRoot type (address.moved m)
  | insert type address dependsOn columns id => insert type (address.moved m) (dependsOn.map (· + k)) columns id
  | delete type rootId path => delete type rootId path

namespace Plan

open ExceptT (Alike)

variable {limit : Nat} (k m : Nat)

/-- The same inserts in the aggregate under another number, when `k` more actions come before them. -/
def Later (xs ys : List Action) : Prop :=
  ys = xs.map (Action.later k m) ∧ ∀ a ∈ xs, a.kind = .insert

variable {k m}

theorem alike_insertsAt {below : Address → (holder next : Nat) → Edit ChangeError (List Action)}
    (hbelow : ∀ node holder next,
      Alike Draft.SameRoot (Later k m) (below node holder next) (below (node.moved m) (holder + k) (next + k)))
    (holder : Nat) (nodes : List Address) (next : Nat) :
    Alike Draft.SameRoot (Later k m) (insertsAt schema below holder nodes next)
      (insertsAt schema below (holder + k) (nodes.map (Address.moved m)) (next + k)) := by
  induction nodes generalizing next with
  | nil => exact .pure ⟨rfl, by simp⟩
  | cons node rest ih =>
    rw [List.map_cons, insertsAt, insertsAt]
    apply (Edit.alike_wrapError (Edit.alike_value m node) _ _).bind
    rintro v _ rfl
    cases v.type? with
    | none => exact .throw _ _
    | some type =>
      have hinner := hbelow node next (next + 1)
      rw [Nat.add_right_comm] at hinner
      apply hinner.bind
      rintro inner _ ⟨rfl, hinserts⟩
      have hfurther := ih (next + 1 + inner.length)
      rw [show next + 1 + inner.length + k = next + k + 1 + (inner.map (Action.later k m)).length by
        rw [List.length_map]; omega] at hfurther
      apply hfurther.bind
      rintro further _ ⟨rfl, hinserts'⟩
      apply Alike.pure
      constructor
      · rw [List.map_append, List.map_cons, Action.later, Address.columns_moved]
        rfl
      · exact List.forall_mem_append.2 ⟨List.forall_mem_cons.2 ⟨rfl, hinserts⟩, hinserts'⟩

/-- The walk that plans inserts does the same in the aggregate under another number and from later positions on. -/
theorem alike_insertsBelow (room : Nat) (node : Address) (holder next : Nat) :
    Alike Draft.SameRoot (Later k m) (insertsBelow schema limit room node holder next)
      (insertsBelow schema limit room (node.moved m) (holder + k) (next + k)) := by
  induction room generalizing node holder next with
  | zero =>
    rw [insertsBelow, insertsBelow]
    apply (Edit.alike_wrapError (Edit.alike_children m node) _ _).bind
    rintro nodes _ rfl
    cases nodes with
    | nil => exact .pure ⟨rfl, by simp⟩
    | cons child _ => exact .throw _ _
  | succ room ih =>
    rw [insertsBelow, insertsBelow]
    apply (Edit.alike_wrapError (Edit.alike_children m node) _ _).bind
    rintro nodes _ rfl
    exact alike_insertsAt ih holder nodes next

/-! ## Updates -/

section Update

variable {n : Nat} {d d₁ d₂ : Draft} {acts : List Action}

theorem alike_inserts (k : Nat) :
    Alike Draft.SameRoot (Later k m) (insertsBelow schema limit limit (.root n) 0 1)
      (insertsBelow schema limit limit (.root m) k (k + 1)) := by
  have h : Alike Draft.SameRoot (Later k m) (insertsBelow schema limit limit (.root n) 0 1)
      (insertsBelow schema limit limit (.root m) (0 + k) (1 + k)) := alike_insertsBelow limit (.root n) 0 1
  rwa [Nat.zero_add, Nat.add_comm 1 k] at h

/-- What can be updated has an identifier and could be inserted: an update is the deletes for the declared paths, the root,
and what follows the root in the insert. -/
theorem runs_insert_of_update (hroot : d₁.root = d₂.root) (h : (update schema limit m).Runs d₁ acts d) :
    ∃ type id deletes inserts d', schema.key? d₂.root = some (type, id) ∧ id ≠ .null ∧
      deletesBelow schema limit type id = .ok deletes ∧
      (insert schema limit n).Runs d₂ (.insertRoot type (.root n) none :: inserts) d' ∧
      (∀ a ∈ inserts, a.kind = .insert) ∧
      acts = deletes ++ .updateRoot type (.root m) :: inserts.map (.later deletes.length m) := by
  obtain ⟨type, id, deletes, inserts, ht, hid, hdeletes, rfl, hinserts⟩ := runs_update.1 h
  rw [hroot] at ht hid
  obtain ⟨hkey, hnull⟩ := (rootId_eq_ok ht).1 hid
  obtain ⟨planned, d', hplanned, ⟨rfl, hkinds⟩, -⟩ := (alike_inserts deletes.length).flip.runs hroot.symm hinserts
  exact ⟨type, id, deletes, planned, d', hkey, hnull, hdeletes, runs_insert.2 ⟨type, planned, ht, rfl, hplanned⟩,
    hkinds, rfl⟩

/-- What has an identifier and could be inserted can be updated, if the declared paths can be listed. -/
theorem runs_update_of_insert (hroot : d₁.root = d₂.root) {type : String} {id : Value} {deletes : List Action}
    (hkey : schema.key? d₁.root = some (type, id)) (hid : id ≠ .null)
    (hdeletes : deletesBelow schema limit type id = .ok deletes) (h : (insert schema limit n).Runs d₂ acts d) :
    ∃ acts' d', (update schema limit m).Runs d₁ acts' d' := by
  obtain ⟨type', inserts, -, -, hinserts⟩ := runs_insert.1 h
  obtain ⟨shifted, d', hshifted, -⟩ := (alike_inserts deletes.length).runs hroot.symm hinserts
  have ht := (Schema.key?_eq_some.1 hkey).1
  exact ⟨_, d', runs_update.2 ⟨type, id, deletes, shifted, ht, (rootId_eq_ok ht).2 ⟨hkey, hid⟩, hdeletes, rfl,
    hshifted⟩⟩

end Update

/-! ## Saving -/

section Save

variable {n : Nat} {d : Draft} {type : String}

theorem save_apply : save schema limit n d =
    match schema.isNew d.root with
    | .error x => (.error (.mapping x), d)
    | .ok true => insert schema limit n d
    | .ok false => update schema limit n d := by
  show (Edit.ofExcept .mapping (schema.isNew d.root) >>= fun new =>
    if new = true then insert schema limit n else update schema limit n) d = _
  cases schema.isNew d.root with
  | error x => rfl
  | ok new => cases new <;> rfl

theorem update_of_rootId {type : String} {x : ChangeError} (ht : d.root.type? = some type)
    (h : rootId schema d.root = .error x) : update schema limit n d = (.error x, d) := by
  show (Edit.ofExcept id (rootType d.root) >>= fun type => Edit.ofExcept id (rootId schema d.root) >>= _) d = _
  rw [rootType_eq_ok.2 ht, h]
  rfl

theorem update_of_key? {key : Value} (h : schema.key? d.root = some (type, key)) (hkey : key ≠ .null) :
    update schema limit n d = (do
      let deletes ← Edit.ofExcept .resolution (deletesBelow schema limit type key)
      let inserts ← insertsBelow schema limit limit (.root n) deletes.length (deletes.length + 1)
      return deletes ++ .updateRoot type (.root n) :: inserts : Edit ChangeError (List Action)) d := by
  show (Edit.ofExcept id (rootType d.root) >>= fun type => Edit.ofExcept id (rootId schema d.root) >>= _) d = _
  have ht := (Schema.key?_eq_some.1 h).1
  rw [rootType_eq_ok.2 ht, (rootId_eq_ok ht).2 ⟨h, hkey⟩]
  rfl

/-- A root without a key can neither be saved nor updated, for the same reason. -/
theorem update_of_keyless (limit n : Nat) (h : schema.key? d.root = none) :
    ∃ x, schema.isNew d.root = .error x ∧ update schema limit n d = (.error (.mapping x), d) := by
  cases hroot : d.root with
  | entity type fields =>
    have ht : d.root.type? = some type := by rw [hroot]; rfl
    cases he : schema.entity? type with
    | none =>
      refine ⟨.unknownEntity type, ?_, update_of_rootId ht ?_⟩
      · simp [Schema.isNew, Schema.entityOf, Schema.entity, he, bind, Except.bind]
      · simp [hroot, rootId, Schema.entityOf, Schema.entity, he, bind, Except.bind, Except.mapError]
    | some e =>
      have hname : e.idProperty = none := by
        rw [Schema.key?, ht, Option.bind_some, Option.map_eq_none_iff, Schema.idProperty?, he] at h
        exact h
      refine ⟨.missingIdProperty e.name, ?_, update_of_rootId ht ?_⟩
      · simp [Schema.isNew, Schema.entityOf, Schema.entity, he, EntityType.requiredId, hname, bind, Except.bind]
      · simp [hroot, rootId, Schema.entityOf, Schema.entity, he, EntityType.requiredId, hname, bind, Except.bind,
          Except.mapError]
  | _ =>
    refine ⟨.notAnEntity d.root, ?_, ?_⟩
    · rw [hroot]
      rfl
    · show (Edit.ofExcept id (rootType d.root) >>= _) d = _
      rw [hroot]
      rfl

/-- An aggregate whose root has no identifier yet is inserted. -/
theorem save_of_new (h : schema.key? d.root = some (type, .null)) : save schema limit n d = insert schema limit n d := by
  rw [save_apply, Schema.isNew_of_key? h]
  rfl

/-- All others are updated. -/
theorem save_of_not_new (h : ∀ type, schema.key? d.root ≠ some (type, .null)) :
    save schema limit n d = update schema limit n d := by
  rw [save_apply]
  cases hkey : schema.key? d.root with
  | none =>
    obtain ⟨x, hnew, hupdate⟩ := update_of_keyless limit n hkey
    rw [hnew, hupdate]
  | some key =>
    obtain ⟨type, id⟩ := key
    have hid : id.isNull = false := by
      rw [← Bool.not_eq_true, Value.isNull_iff]
      rintro rfl
      exact h type hkey
    rw [Schema.isNew_of_key? hkey, hid]

/-! ### Errors -/

/-- The error is not about a precondition. -/
def Unconditional (x : ChangeError) : Prop := ∀ p, x ≠ .precondition p

theorem unconditional_resolution (x : ResolutionError) : Unconditional (.resolution x) := by
  intro p hx
  cases hx

theorem unconditional_mapping (x : MappingError) : Unconditional (.mapping x) := by
  intro p hx
  cases hx

theorem raises_wrapError {α : Type} (e : Edit ResolutionError α) :
    ExceptT.Raises Unconditional (e.wrapError .resolution) := by
  intro d x hx
  change (e d).1.mapError .resolution = .error x at hx
  cases he : (e d).1 with
  | ok a =>
    rw [he] at hx
    cases hx
  | error y =>
    rw [he] at hx
    cases hx
    exact unconditional_resolution y

theorem raises_insertsAt {below : Address → (holder next : Nat) → Edit ChangeError (List Action)}
    (hbelow : ∀ node holder next, ExceptT.Raises Unconditional (below node holder next)) (holder : Nat)
    (nodes : List Address) (next : Nat) :
    ExceptT.Raises Unconditional (insertsAt schema below holder nodes next) := by
  induction nodes generalizing next with
  | nil => exact ExceptT.raises_pure
  | cons node rest ih =>
    rw [insertsAt]
    apply ExceptT.raises_bind (raises_wrapError _)
    intro v
    cases v.type? with
    | none => exact ExceptT.raises_throw (unconditional_mapping _)
    | some type =>
      apply ExceptT.raises_bind (hbelow node next (next + 1))
      intro inner
      exact ExceptT.raises_bind (ih _) fun _ => ExceptT.raises_pure

/-- No precondition stands in the way of inserts. -/
theorem raises_insertsBelow (room : Nat) (node : Address) (holder next : Nat) :
    ExceptT.Raises Unconditional (insertsBelow schema limit room node holder next) := by
  induction room generalizing node holder next with
  | zero =>
    rw [insertsBelow]
    apply ExceptT.raises_bind (raises_wrapError _)
    intro nodes
    cases nodes with
    | nil => exact ExceptT.raises_pure
    | cons child _ => exact ExceptT.raises_throw (unconditional_resolution _)
  | succ room ih =>
    rw [insertsBelow]
    apply ExceptT.raises_bind (raises_wrapError _)
    intro nodes
    exact raises_insertsAt ih holder nodes next

theorem raises_ofExcept {α δ : Type} {a : Except δ α} {wrap : δ → ChangeError}
    (h : ∀ x, a = .error x → Unconditional (wrap x)) : ExceptT.Raises Unconditional (Edit.ofExcept wrap a) := by
  intro d x hx
  change a.mapError wrap = .error x at hx
  cases a with
  | ok _ => cases hx
  | error y =>
    cases hx
    exact h y rfl

theorem raises_insert : ExceptT.Raises Unconditional (insert schema limit n) := by
  refine ExceptT.raises_bind ExceptT.raises_get fun d => ?_
  refine ExceptT.raises_bind (raises_ofExcept fun x hx => ?_) fun type => ?_
  · unfold rootType at hx
    split at hx <;> cases hx
    exact unconditional_mapping _
  · exact ExceptT.raises_bind (raises_insertsBelow limit _ _ _) fun _ => ExceptT.raises_pure

/-- No precondition stands in the way of saving: what is updated has an identifier. -/
theorem save_ne_precondition (p : Precondition) : (save schema limit n d).1 ≠ .error (.precondition p) := by
  intro hfails
  by_cases hnew : ∃ type, schema.key? d.root = some (type, .null)
  · obtain ⟨type, hkey⟩ := hnew
    rw [save_of_new hkey] at hfails
    exact raises_insert d _ hfails p rfl
  · have hnew : ∀ type, schema.key? d.root ≠ some (type, .null) := fun type h => hnew ⟨type, h⟩
    rw [save_of_not_new hnew] at hfails
    cases hkey : schema.key? d.root with
    | none =>
      obtain ⟨x, -, hupdate⟩ := update_of_keyless limit n hkey
      rw [hupdate] at hfails
      cases hfails
    | some key =>
      obtain ⟨type, key⟩ := key
      rw [update_of_key? hkey (by rintro rfl; exact hnew type hkey)] at hfails
      refine ExceptT.raises_bind (raises_ofExcept fun x _ => ?_) (fun deletes => ?_) d _ hfails p rfl
      · exact unconditional_resolution x
      · exact ExceptT.raises_bind (raises_insertsBelow limit _ _ _) fun _ => ExceptT.raises_pure

end Save

/-- An aggregate can be planned to be updated if and only if its root is of a registered type, has an identifier, the
paths declared below its type can be listed, and it could be planned to be inserted. The update is made of the deletes for
these paths, of the root, and of the inserts which the other plan would have, all as far behind as there are deletes. To
save an aggregate is to insert it if its root has no identifier yet, and else to update it; the update does not miss the
identifier then. -/
theorem update_exact (schema : Schema) (limit : Nat) (w v : Workspace) (root : Value) :
    ((∃ actions, (w.begin root (update schema limit)).1 = .ok actions) ↔
        ∃ type id, schema.key? root = some (type, id) ∧ id ≠ .null ∧
          (∃ deletes, deletesBelow schema limit type id = .ok deletes) ∧
          ∃ actions, (v.begin root (insert schema limit)).1 = .ok actions) ∧
      (∀ actions, (w.begin root (update schema limit)).1 = .ok actions →
        ∃ type id deletes inserts, schema.key? root = some (type, id) ∧
          deletesBelow schema limit type id = .ok deletes ∧ (∀ a ∈ deletes, ∃ target path, a = .delete target id path) ∧
          (v.begin root (insert schema limit)).1 = .ok (.insertRoot type (.root v.roots.length) none :: inserts) ∧
          (∀ a ∈ inserts, a.kind = .insert) ∧
          actions = deletes ++ .updateRoot type (.root w.roots.length) ::
            inserts.map (.later deletes.length w.roots.length)) ∧
      (∀ type, schema.key? root = some (type, .null) →
        w.begin root (save schema limit) = w.begin root (insert schema limit)) ∧
      ((∀ type, schema.key? root ≠ some (type, .null)) →
        w.begin root (save schema limit) = w.begin root (update schema limit)) ∧
      ∀ p, (w.begin root (save schema limit)).1 ≠ .error (.precondition p) := by
  have hroot : (⟨root, w.writes⟩ : Draft).root = (⟨root, v.writes⟩ : Draft).root := rfl
  refine ⟨⟨?_, ?_⟩, ?_, ?_, ?_, ?_⟩
  · rintro ⟨actions, h⟩
    obtain ⟨d, hupdate⟩ := Workspace.begin_eq_ok.1 h
    obtain ⟨type, id, deletes, inserts, d', hkey, hid, hdeletes, hinsert, -⟩ := runs_insert_of_update hroot hupdate
    exact ⟨type, id, hkey, hid, ⟨deletes, hdeletes⟩, _, Workspace.begin_eq_ok.2 ⟨d', hinsert⟩⟩
  · rintro ⟨type, id, hkey, hid, ⟨deletes, hdeletes⟩, actions, h⟩
    obtain ⟨d, hinsert⟩ := Workspace.begin_eq_ok.1 h
    obtain ⟨acts, d', hupdate⟩ := runs_update_of_insert hroot hkey hid hdeletes hinsert
    exact ⟨acts, Workspace.begin_eq_ok.2 ⟨d', hupdate⟩⟩
  · intro actions h
    obtain ⟨d, hupdate⟩ := Workspace.begin_eq_ok.1 h
    obtain ⟨type, id, deletes, inserts, d', hkey, hid, hdeletes, hinsert, hkinds, rfl⟩ :=
      runs_insert_of_update hroot hupdate
    refine ⟨type, id, deletes, inserts, hkey, hdeletes, ?_, Workspace.begin_eq_ok.2 ⟨d', hinsert⟩, hkinds, rfl⟩
    obtain ⟨declared, -, rfl⟩ := deletesBelow_eq_ok.1 hdeletes
    exact List.forall_mem_map.2 fun p _ => ⟨p.target, p.path, rfl⟩
  · intro type hkey
    rw [Workspace.begin_eq, Workspace.begin_eq, save_of_new hkey]
  · intro hkey
    rw [Workspace.begin_eq, Workspace.begin_eq, save_of_not_new hkey]
  · intro p
    rw [Workspace.begin_eq]
    exact save_ne_precondition p

end Plan

end Aggregate
