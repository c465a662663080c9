import Mathlib
import Aggregate.ChangeSet.Basic
import Aggregate.Proofs.Insertion

/-!
# Plans

What the plans are that store an aggregate, and when there is one.

- `Plan.runs_insert`, `Plan.runs_update`, `Plan.runs_save`: plans as deletes, the action for the root, and inserts;
- `Plan.insertsBelow_of_root`: the inserts are those of the aggregate's occurrences, unless a set has lost elements;
- `Plan.insert_exact`: a plan to insert an aggregate exists if and only if all its occurrences are accepted, and it
  inserts each of them once.
-/

namespace Aggregate

open Value (Lost lasts)
open ExceptT (Runs runs_bind runs_pure runs_get not_runs_throw)
open Edit (runs_ofExcept)

variable {hidden tame : Value.Hidden} {schema : Schema} {limit : Nat}

/-! ## Workspaces -/

namespace Workspace

variable {α ε : Type} {w w' : Workspace} {v : Value} {e : Nat → Edit ε α} {a : α}

theorem begin_eq (w : Workspace) (v : Value) (e : Nat → Edit ε α) :
    w.begin v e = ((e w.roots.length ⟨v, w.writes⟩).1, ⟨w.schema,
      w.roots ++ [(e w.roots.length ⟨v, w.writes⟩).2.root], (e w.roots.length ⟨v, w.writes⟩).2.writes⟩) := by
  have hroot : (w.addRoot v).root w.roots.length = v := by simp [addRoot, root]
  unfold begin edit
  rw [hroot]
  simp only [addRoot, List.set_append_right _ _ (Nat.le_refl _), Nat.sub_self, List.set_cons_zero]
  rfl

/-- An edit on a new aggregate that succeeds is a run on a draft of it. -/
theorem runs_of_begin (h : w.begin v e = (.ok a, w')) :
    ∃ d, (e w.roots.length).Runs ⟨v, w.writes⟩ a d ∧ w'.schema = w.schema ∧ w'.roots = w.roots ++ [d.root] := by
  rw [begin_eq] at h
  obtain ⟨ha, rfl⟩ := Prod.mk.inj h
  exact ⟨_, ⟨ha, rfl⟩, rfl, rfl⟩

theorem begin_eq_ok : (w.begin v e).1 = .ok a ↔ ∃ d, (e w.roots.length).Runs ⟨v, w.writes⟩ a d := by
  rw [begin_eq]
  exact ⟨fun h => ⟨_, h, rfl⟩, fun ⟨_, h⟩ => h.1⟩

end Workspace

/-! ## The parts of a plan -/

namespace Plan

variable {n : Nat} {d d' : Draft} {acts : List Action}

theorem rootType_eq_ok {root : Value} {type : String} : rootType root = .ok type ↔ root.type? = some type := by
  unfold rootType
  cases root.type? <;> simp

theorem runs_insert :
    (insert schema limit n).Runs d acts d' ↔ ∃ type inserts, d.root.type? = some type ∧
      acts = .insertRoot type (.root n) none :: inserts ∧
      (insertsBelow schema limit limit (.root n) 0 1).Runs d inserts d' := by
  rw [insert, runs_bind]
  constructor
  · rintro ⟨d₀, d₁, h₀, h⟩
    obtain ⟨rfl, rfl⟩ := runs_get.1 h₀
    obtain ⟨type, d₂, htype, h⟩ := runs_bind.1 h
    obtain ⟨ht, rfl⟩ := runs_ofExcept.1 htype
    obtain ⟨inserts, d₃, hinserts, h⟩ := runs_bind.1 h
    obtain ⟨rfl, rfl⟩ := runs_pure.1 h
    exact ⟨type, inserts, rootType_eq_ok.1 ht, rfl, hinserts⟩
  · rintro ⟨type, inserts, ht, rfl, hinserts⟩
    exact ⟨d, d, runs_get.2 ⟨rfl, rfl⟩, runs_bind.2 ⟨type, d, runs_ofExcept.2 ⟨rootType_eq_ok.2 ht, rfl⟩,
      runs_bind.2 ⟨inserts, d', hinserts, runs_pure.2 ⟨rfl, rfl⟩⟩⟩⟩

theorem runs_update :
    (update schema limit n).Runs d acts d' ↔ ∃ type id deletes inserts, d.root.type? = some type ∧
      rootId schema d.root = .ok id ∧ deletesBelow schema limit type id = .ok deletes ∧
      acts = deletes ++ .updateRoot type (.root n) :: inserts ∧
      (insertsBelow schema limit limit (.root n) deletes.length (deletes.length + 1)).Runs d inserts d' := by
  rw [update, runs_bind]
  constructor
  · rintro ⟨d₀, d₁, h₀, h⟩
    obtain ⟨rfl, rfl⟩ := runs_get.1 h₀
    obtain ⟨type, d₂, htype, h⟩ := runs_bind.1 h
    obtain ⟨ht, rfl⟩ := runs_ofExcept.1 htype
    obtain ⟨id, d₃, hrootId, h⟩ := runs_bind.1 h
    obtain ⟨hid, rfl⟩ := runs_ofExcept.1 hrootId
    obtain ⟨deletes, d₄, hbelow, h⟩ := runs_bind.1 h
    obtain ⟨hdeletes, rfl⟩ := runs_ofExcept.1 hbelow
    obtain ⟨inserts, d₅, hinserts, h⟩ := runs_bind.1 h
    obtain ⟨rfl, rfl⟩ := runs_pure.1 h
    exact ⟨type, id, deletes, inserts, rootType_eq_ok.1 ht, hid, hdeletes, rfl, hinserts⟩
  · rintro ⟨type, id, deletes, inserts, ht, hid, hdeletes, rfl, hinserts⟩
    refine ⟨d, d, runs_get.2 ⟨rfl, rfl⟩, runs_bind.2 ⟨type, d, runs_ofExcept.2 ⟨rootType_eq_ok.2 ht, rfl⟩, ?_⟩⟩
    refine runs_bind.2 ⟨id, d, runs_ofExcept.2 ⟨hid, rfl⟩, runs_bind.2 ⟨deletes, d, runs_ofExcept.2 ⟨hdeletes, rfl⟩, ?_⟩⟩
    exact runs_bind.2 ⟨inserts, d', hinserts, runs_pure.2 ⟨rfl, rfl⟩⟩

theorem runs_save :
    (save schema limit n).Runs d acts d' ↔
      schema.isNew d.root = .ok true ∧ (insert schema limit n).Runs d acts d' ∨
        schema.isNew d.root = .ok false ∧ (update schema limit n).Runs d acts d' := by
  rw [save, runs_bind]
  constructor
  · rintro ⟨d₀, d₁, h₀, h⟩
    obtain ⟨rfl, rfl⟩ := runs_get.1 h₀
    obtain ⟨new, d₂, hnew, h⟩ := runs_bind.1 h
    obtain ⟨hn, rfl⟩ := runs_ofExcept.1 hnew
    cases new with
    | true => exact .inl ⟨hn, h⟩
    | false => exact .inr ⟨hn, h⟩
  · rintro (⟨hn, h⟩ | ⟨hn, h⟩)
    all_goals exact ⟨d, d, runs_get.2 ⟨rfl, rfl⟩, runs_bind.2 ⟨_, d, runs_ofExcept.2 ⟨hn, rfl⟩, h⟩⟩

/-- How a plan that stores an aggregate begins: with the deletes and the action for the root. -/
inductive Starts (schema : Schema) (limit n : Nat) (root : Value) (type : String) : List Action → Action → Prop
  | insert : root.type? = some type → Starts schema limit n root type [] (.insertRoot type (.root n) none)
  | update {id : Value} {deletes : List Action} : root.type? = some type → rootId schema root = .ok id →
      deletesBelow schema limit type id = .ok deletes →
      Starts schema limit n root type deletes (.updateRoot type (.root n))

/-- A plan that stores an aggregate goes on with the inserts below the root. -/
theorem starts_of_runs
    (h : (insert schema limit n).Runs d acts d' ∨ (update schema limit n).Runs d acts d' ∨
      (save schema limit n).Runs d acts d') :
    ∃ type deletes head inserts, Starts schema limit n d.root type deletes head ∧ acts = deletes ++ head :: inserts ∧
      (insertsBelow schema limit limit (.root n) deletes.length (deletes.length + 1)).Runs d inserts d' := by
  have hsplit : (insert schema limit n).Runs d acts d' ∨ (update schema limit n).Runs d acts d' := by
    rcases h with h | h | h
    · exact .inl h
    · exact .inr h
    · exact (runs_save.1 h).imp (·.2) (·.2)
  rcases hsplit with h | h
  · obtain ⟨type, inserts, ht, rfl, hinserts⟩ := runs_insert.1 h
    exact ⟨type, [], _, inserts, .insert ht, rfl, hinserts⟩
  · obtain ⟨type, id, deletes, inserts, ht, hid, hdeletes, rfl, hinserts⟩ := runs_update.1 h
    exact ⟨type, deletes, _, inserts, .update ht hid hdeletes, rfl, hinserts⟩

theorem deletesBelow_eq_ok {type : String} {id : Value} {deletes : List Action} :
    deletesBelow schema limit type id = .ok deletes ↔ ∃ declared, schema.declared limit type = .ok declared ∧
      deletes = declared.reverse.map fun p => .delete p.target id p.path := by
  simp only [deletesBelow, Except.bind_eq_ok, Except.pure_eq_ok]

theorem delete_eq_ok {type : String} {id : Value} {acts : List Action} :
    delete schema limit type id = .ok acts ↔ ∃ declared, schema.declared limit type = .ok declared ∧
      acts = (declared.reverse ++ [(⟨.root, type⟩ : DeclaredPath)]).map fun p => .delete p.target id p.path := by
  simp only [delete, Except.bind_eq_ok, Except.mapError_eq_ok, deletesBelow_eq_ok, Except.pure_eq_ok]
  constructor
  · rintro ⟨_, ⟨declared, hdeclared, rfl⟩, rfl⟩
    exact ⟨declared, hdeclared, by simp⟩
  · rintro ⟨declared, hdeclared, rfl⟩
    exact ⟨_, ⟨declared, hdeclared, rfl⟩, by simp⟩

theorem Starts.kind_deletes {root : Value} {type : String} {deletes : List Action} {head : Action}
    (h : Starts schema limit n root type deletes head) : ∀ a ∈ deletes, a.kind = .delete := by
  intro a ha
  cases h with
  | insert _ => cases ha
  | update _ _ hdeletes =>
    obtain ⟨declared, -, rfl⟩ := deletesBelow_eq_ok.1 hdeletes
    obtain ⟨p, -, rfl⟩ := List.mem_map.1 ha
    rfl

/-- What the walk plans below a root, unless a set has lost elements. -/
theorem insertsBelow_of_root (hs : hidden.Nested tame schema) {base : Nat} (hd : d.root.Canonical)
    (h : (insertsBelow schema limit limit (.root n) base (base + 1)).Runs d acts d') :
    d'.root.Canonical ∧
      (d'.root.erase hidden = d.root.erase hidden ∧
          (∀ o ∈ schema.occurrences n d.root, o.Accepted schema ∧ o.node.depth ≤ limit) ∧
          Inserts base [⟨.root n, d.root⟩] (Occurrence.below schema ⟨.root n, d.root⟩) acts ∨
        Lost tame (d.root.erase hidden) ([] :: places acts) (d'.root.erase hidden)) := by
  refine ⟨(insertsBelow_keeps Edit.walk_canonical limit (.root n) _ _ _ _ _ trivial h hd).1, ?_⟩
  let o : Occurrence := ⟨.root n, d.root⟩
  have hj : [o.erase hidden][0]? = some (o.erase hidden) := rfl
  have hrun : (insertsBelow schema limit limit (o.erase hidden).node (base + 0)
    (base + [o.erase hidden].length)).Runs d acts d' := h
  have hroot : Occurs schema n (d.root.erase hidden) (o.erase hidden) := .root
  have hwalk := insertsBelow_of_occurs hs hroot hd rfl (Nat.zero_add limit) hj (by simp) (List.nil_sublist []) hrun
  rw [List.append_nil] at hwalk
  refine hwalk.imp_left fun ⟨hu, hacc, hplanned⟩ => ⟨hu, ?_, ?_⟩
  · rw [Schema.occurrences, Occurrence.all_eq, List.forall_mem_cons]
    refine ⟨⟨(Occurrence.accepted_erase hs.inner).1 hacc, Nat.zero_le _⟩, fun x hx => ?_⟩
    have hx : x.erase hidden ∈ (o.erase hidden).below schema := by
      rw [Occurrence.below_erase hs.inner]
      exact List.mem_map_of_mem hx
    exact ⟨(Occurrence.accepted_erase hs.inner).1 (hplanned.accepted _ hx), hplanned.depth_le (x.erase hidden) hx⟩
  · have hinserts := hplanned.inserts
    rw [Occurrence.below_erase hs.inner] at hinserts
    exact Inserts.of_erase hinserts

/-- Planning to insert an aggregate succeeds if and only if each of its occurrences is an entity of a registered type,
not too deep, whose references hold the containers they declare. The plan then inserts the root and, in their order, each
occurrence below it once. This takes that the elements of each set differ in more than the orderings of sets. -/
theorem insert_exact (limit : Nat) (w : Workspace) (root : Value) (hroot : root.Canonical)
    (hsets : root.unlabel.SetsNodup) :
    ((∃ actions, (w.begin root (insert w.schema limit)).1 = .ok actions) ↔
        ∀ o ∈ w.schema.occurrences w.roots.length root, o.Accepted w.schema ∧ o.node.depth ≤ limit) ∧
      ∀ actions, (w.begin root (insert w.schema limit)).1 = .ok actions →
        ∃ type below inserts, root.type? = some type ∧
          w.schema.occurrences w.roots.length root = ⟨.root w.roots.length, root⟩ :: below ∧
          actions = .insertRoot type (.root w.roots.length) none :: inserts ∧
          Inserts 0 [⟨.root w.roots.length, root⟩] below inserts := by
  have hs : Value.Hidden.Nested (fun _ _ => false) (fun _ _ => false) w.schema := ⟨le_rfl, fun _ _ _ _ _ => rfl⟩
  have hsets' : root.unlabel.unlabel.SetsNodup := by rwa [Value.unlabel_unlabel]
  have hparts {actions : List Action} (h : (w.begin root (insert w.schema limit)).1 = .ok actions) :
      (∀ o ∈ w.schema.occurrences w.roots.length root, o.Accepted w.schema ∧ o.node.depth ≤ limit) ∧
        ∃ type inserts, root.type? = some type ∧ actions = .insertRoot type (.root w.roots.length) none :: inserts ∧
          Inserts 0 [⟨.root w.roots.length, root⟩]
            (Occurrence.below w.schema ⟨.root w.roots.length, root⟩) inserts := by
    obtain ⟨d, h⟩ := Workspace.begin_eq_ok.1 h
    obtain ⟨type, inserts, htype, rfl, hinserts⟩ := runs_insert.1 h
    obtain ⟨-, hwalk⟩ := insertsBelow_of_root hs hroot hinserts
    obtain ⟨-, hacc, hinserts⟩ := hwalk.resolve_right fun h => h.1 hsets'
    exact ⟨hacc, type, inserts, htype, rfl, hinserts⟩
  refine ⟨⟨fun ⟨_, h⟩ => (hparts h).1, fun h => ?_⟩, fun actions h => ?_⟩
  · let o : Occurrence := ⟨.root w.roots.length, root⟩
    have hoccurs : Occurs w.schema w.roots.length root.unlabel (o.erase fun _ _ => false) := .root
    have hall : ∀ x ∈ (o.erase fun _ _ => false).all w.schema, x.Accepted w.schema ∧ x.node.depth ≤ limit := by
      rw [Occurrence.all_erase hs.inner]
      intro x hx
      obtain ⟨y, hy, rfl⟩ := List.mem_map.1 hx
      exact ⟨(Occurrence.accepted_erase hs.inner).2 (h y hy).1, (h y hy).2⟩
    have hdepth : ∀ x ∈ (o.erase fun _ _ => false).below w.schema, x.node.depth ≤ o.node.depth + limit := fun x hx =>
      (hall x (Occurrence.mem_all_of_mem_below hx)).2.trans (Nat.le_add_left ..)
    obtain ⟨inserts, d, hinserts⟩ := insertsBelow_ok (d := ⟨root, w.writes⟩) hsets' hoccurs hroot rfl
      (fun x hx => (hall x hx).1) hdepth
    obtain ⟨⟨e, he, -⟩, -⟩ := h o Occurrence.mem_all_self
    obtain ⟨type, htype, -⟩ := Option.bind_eq_some_iff.1 he
    exact ⟨_, Workspace.begin_eq_ok.2 ⟨d, runs_insert.2 ⟨type, inserts, htype, rfl, hinserts⟩⟩⟩
  · obtain ⟨-, type, inserts, htype, rfl, hinserts⟩ := hparts h
    exact ⟨type, _, inserts, htype, Occurrence.all_eq .., rfl, hinserts⟩

end Plan

/-! ## Change sets -/

namespace ChangeSet

variable {w w' : Workspace} {root : Value} {set : ChangeSet}

/-- A change set that stores an aggregate holds what an edit has planned for it. -/
theorem runs_of_planWith {plan : Nat → Edit ChangeError (List Action)} (h : planWith w root plan = (.ok set, w')) :
    ∃ acts d type, (plan w.roots.length).Runs ⟨root, w.writes⟩ acts d ∧ root.type? = some type ∧
      set = ⟨.save, type, some root, acts⟩ ∧ w'.schema = w.schema ∧ w'.roots = w.roots ++ [d.root] := by
  unfold planWith at h
  rcases hbegin : w.begin root plan with ⟨answer, w₁⟩
  simp only [hbegin, Prod.mk.injEq, Except.bind_eq_ok, Except.pure_eq_ok] at h
  obtain ⟨⟨acts, rfl, type, ht, rfl⟩, rfl⟩ := h
  obtain ⟨d, hruns, hschema, hroots⟩ := Workspace.runs_of_begin hbegin
  exact ⟨acts, d, type, hruns, Plan.rootType_eq_ok.1 ht, rfl, hschema, hroots⟩

/-- A change set that stores an aggregate holds the plan that was made for it. -/
theorem starts_of_plan
    (h : planInsert limit w root = (.ok set, w') ∨ planUpdate limit w root = (.ok set, w') ∨
      planSave limit w root = (.ok set, w')) :
    ∃ type deletes head inserts d, Plan.Starts w.schema limit w.roots.length root type deletes head ∧
      set = ⟨.save, type, some root, deletes ++ head :: inserts⟩ ∧
      (Plan.insertsBelow w.schema limit limit (.root w.roots.length) deletes.length (deletes.length + 1)).Runs
        ⟨root, w.writes⟩ inserts d ∧
      w'.schema = w.schema ∧ w'.roots = w.roots ++ [d.root] := by
  have hall : ∃ acts d type, ((Plan.insert w.schema limit w.roots.length).Runs ⟨root, w.writes⟩ acts d ∨
        (Plan.update w.schema limit w.roots.length).Runs ⟨root, w.writes⟩ acts d ∨
        (Plan.save w.schema limit w.roots.length).Runs ⟨root, w.writes⟩ acts d) ∧ root.type? = some type ∧
      set = ⟨.save, type, some root, acts⟩ ∧ w'.schema = w.schema ∧ w'.roots = w.roots ++ [d.root] := by
    rcases h with h | h | h
    · obtain ⟨acts, d, type, hruns, hrest⟩ := runs_of_planWith h
      exact ⟨acts, d, type, .inl hruns, hrest⟩
    · obtain ⟨acts, d, type, hruns, hrest⟩ := runs_of_planWith h
      exact ⟨acts, d, type, .inr (.inl hruns), hrest⟩
    · obtain ⟨acts, d, type, hruns, hrest⟩ := runs_of_planWith h
      exact ⟨acts, d, type, .inr (.inr hruns), hrest⟩
  obtain ⟨acts, d, type, hruns, ht, rfl, hschema, hroots⟩ := hall
  obtain ⟨type', deletes, head, inserts, hstarts, rfl, hinserts⟩ := Plan.starts_of_runs hruns
  have : type' = type := by cases hstarts <;> simp_all
  subst this
  exact ⟨type', deletes, head, inserts, d, hstarts, rfl, hinserts, hschema, hroots⟩

/-- A plan of deletes has one for each declared path, and one for the root. -/
theorem planDelete_eq_ok {type : String} {id : Value} {entity : Option Value} :
    planDelete limit schema type id entity = .ok set ↔ ∃ declared, schema.declared limit type = .ok declared ∧
      set = ⟨.delete, type, entity,
        (declared.reverse ++ [(⟨.root, type⟩ : DeclaredPath)]).map fun p => .delete p.target id p.path⟩ := by
  simp only [planDelete, Except.bind_eq_ok, Plan.delete_eq_ok, Except.pure_eq_ok]
  constructor
  · rintro ⟨_, ⟨declared, hdeclared, rfl⟩, rfl⟩
    exact ⟨declared, hdeclared, rfl⟩
  · rintro ⟨declared, hdeclared, rfl⟩
    exact ⟨_, ⟨declared, hdeclared, rfl⟩, rfl⟩

end ChangeSet

/-! ## A shop -/

namespace Shop

/-- Orders with a list of items and a set of tags. -/
def entities : Schema where
  types := [
    ⟨"Order", some "id", [⟨"items", some "Item", .list, none, false⟩, ⟨"tags", some "Tag", .set, none, false⟩]⟩,
    ⟨"Item", some "id", []⟩,
    ⟨"Tag", some "id", []⟩]
  sound := by decide
  distinct := by decide

/-- An order that was never stored, with its tags in no promised order. -/
def order : Value :=
  .entity "Order" [
    ("items", .list [.entity "Item" [("name", .text "pen")], .entity "Item" [("name", .text "pen")]]),
    ("tags", .set .hashed [.entity "Tag" [("name", .text "new")], .entity "Tag" [("name", .text "old")]])]

/-- The change set that was planned, or one that does nothing. -/
def changes (plan : Except ChangeError ChangeSet × Workspace) : ChangeSet :=
  match plan.1 with
  | .ok set => set
  | .error _ => ⟨.save, "", none, []⟩

/-- The workspace once the order was planned. -/
def planned : Workspace := (ChangeSet.planInsert 1 (.empty entities) order).2

/-- The change set for the order. -/
def ordering : ChangeSet := changes (ChangeSet.planInsert 1 (.empty entities) order)

end Shop

namespace Plan

/-- Both items, equal as they are, and both tags get an insert each. -/
theorem insert_exact_order :
    Shop.order.Canonical ∧ Shop.order.unlabel.SetsNodup ∧
      ((∃ actions, ((Workspace.empty Shop.entities).begin Shop.order (insert Shop.entities 1)).1 = .ok actions) ↔
        ∀ o ∈ Shop.entities.occurrences 0 Shop.order, o.Accepted Shop.entities ∧ o.node.depth ≤ 1) ∧
      ∀ actions, ((Workspace.empty Shop.entities).begin Shop.order (insert Shop.entities 1)).1 = .ok actions →
        ∃ type below inserts, Shop.order.type? = some type ∧
          Shop.entities.occurrences 0 Shop.order = ⟨.root 0, Shop.order⟩ :: below ∧
          actions = .insertRoot type (.root 0) none :: inserts ∧
          Inserts 0 [⟨.root 0, Shop.order⟩] below inserts := by
  have hroot : Shop.order.Canonical := by decide
  have hsets : Shop.order.unlabel.SetsNodup := by decide
  exact ⟨hroot, hsets, insert_exact 1 (.empty Shop.entities) Shop.order hroot hsets⟩

end Plan

end Aggregate
