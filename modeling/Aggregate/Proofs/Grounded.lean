import Mathlib
import Aggregate.Proofs.Declared
import Aggregate.Proofs.Planning

/-!
# Inserts and their holders

The inserts of a plan against the types of the entities, whatever these are: a plan follows the values, and asks no
declaration whether an entity is of the type that is declared for its place.

- `Edit.exists_of_mem_children`: what a value holds is found along the references of its own type;
- `Plan.Grounded`: inserts that each go one reference further than an action before them, the one for their holder;
  those of a plan are (`ChangeSet.grounded_of_plan`);
- `ChangeSet.cleared_of_planUpdate`: an update clears the rows at the path of an insert if the path is declared, as it is
  where all entities on the way are of the declared types.
-/

namespace Aggregate

open ExceptT (runs_pure)
open Edit (runs_value runs_ofExcept)

variable {schema : Schema} {limit : Nat}

theorem EntityType.target_of_mem_references {e : EntityType} {r : Reference} (h : r ∈ e.references) :
    r.property.target = some r.target := by
  obtain ⟨p, -, hr⟩ := List.mem_filterMap.1 h
  unfold Property.reference? at hr
  split at hr <;> cases hr
  assumption

namespace Edit

variable {node : Address} {nodes : List Address} {d d' : Draft}

theorem exists_of_mem_childrenAlong {owner : String} {rs : List Reference} (hn : node.Plain)
    (h : (childrenAlong schema node owner rs).Runs d nodes d') :
    ∀ n ∈ nodes, ∃ r ∈ rs, ∃ place, place.Plain ∧
      n = .child node ⟨owner, r.property, node.path.child r.property.name⟩ place := by
  induction rs generalizing d nodes with
  | nil =>
    obtain ⟨rfl, -⟩ := runs_pure.1 h
    exact List.forall_mem_nil _
  | cons r rest ih =>
    obtain ⟨here, d₁, further, hhere, hfurther, rfl⟩ := runs_childrenAlong_cons.1 h
    obtain ⟨holder, c, hv, hread⟩ := runs_childrenBy_read hhere
    obtain ⟨_, -, hruns⟩ := runs_childrenBy owner hn hv hread
    obtain ⟨-, rfl, -⟩ := (hruns _ _).1 hhere
    refine List.forall_mem_append.2 ⟨fun n hmem => ?_, fun n hmem => ?_⟩
    · obtain ⟨part, hpart, rfl⟩ := List.mem_map.1 hmem
      exact ⟨r, List.mem_cons_self, part.1, Property.plain_of_mem_parts hpart, rfl⟩
    · obtain ⟨r', hr', hplace⟩ := ih hfurther n hmem
      exact ⟨r', List.mem_cons_of_mem _ hr', hplace⟩

/-- What an entity holds is found along the references of its own type. -/
theorem exists_of_mem_children (hn : node.Plain) (h : (children schema node).Runs d nodes d') {v : Value}
    (hv : node.current schema d.root = .ok v) :
    ∃ e, schema.typeOf? v = some e ∧ ∀ n ∈ nodes, ∃ r ∈ e.references, ∃ place, place.Plain ∧
      n = .child node ⟨e.name, r.property, node.path.child r.property.name⟩ place := by
  obtain ⟨v', e, hv', he, h⟩ := runs_children.1 h
  cases hv.symm.trans hv'
  exact ⟨e, he, exists_of_mem_childrenAlong hn h⟩

end Edit

/-! ## Grounded inserts -/

namespace Plan

variable {below : Address → (holder next : Nat) → Edit ChangeError (List Action)} {d d' : Draft}
  {acts before : List Action} {nodes : List Address} {node : Address} {holder : Action} {j : Nat}

/-- The address lies one reference further than an action's entity, by the type that the action tells. -/
def Extends (schema : Schema) (holder : Action) (node : Address) : Prop :=
  ∃ parent e r place, holder.address? = some parent ∧ schema.entity? holder.type = some e ∧ r ∈ e.references ∧
    node = .child parent ⟨e.name, r.property, parent.path.child r.property.name⟩ place

/-- Inserts that each depend on the action for their holder, be it among those `before` or among the inserts. -/
inductive Grounded (schema : Schema) : (before : List Action) → List Action → Prop
  | nil {before : List Action} : Grounded schema before []
  | cons {before rest : List Action} {holder : Action} {type : String} {node : Address} {j : Nat} :
      before[j]? = some holder → Extends schema holder node →
      Grounded schema (before ++ [.insert type node (some j) node.columns none]) rest →
      Grounded schema before (.insert type node (some j) node.columns none :: rest)

namespace Grounded

variable {xs ys : List Action}

theorem append (hx : Grounded schema before xs) (hy : Grounded schema (before ++ xs) ys) :
    Grounded schema before (xs ++ ys) := by
  induction hx with
  | nil => simpa using hy
  | cons hj hholder _ ih => exact .cons hj hholder (ih (by simpa using hy))

/-- Each insert depends on an action before it, which is about its holder. -/
theorem exists_holder (h : Grounded schema before acts) {i : Nat} {a : Action} (ha : acts[i]? = some a) :
    a.kind = .insert ∧ ∃ node holder, a.address? = some node ∧ a.dependency (before ++ acts.take i) = some holder ∧
      Extends schema holder node := by
  induction h generalizing i with
  | nil => cases ha
  | @cons before rest holder type node j hj hholder _ ih =>
    cases i with
    | zero =>
      cases ha
      refine ⟨rfl, node, holder, rfl, ?_, hholder⟩
      rw [List.take_zero, List.append_nil]
      exact hj
    | succ i =>
      rw [List.take_succ_cons, ← List.singleton_append, ← List.append_assoc]
      exact ih ha

end Grounded

/-- The inserts for what an entity holds are grounded, if those further down are. -/
theorem grounded_of_insertsAt
    (hbelow : ∀ {node : Address} {before acts : List Action} {holder : Action} {j : Nat} {v : Value} {d d' : Draft},
      node.Plain → before[j]? = some holder → holder.address? = some node → node.current schema d.root = .ok v →
      v.type? = some holder.type → (below node j before.length).Runs d acts d' → Grounded schema before acts)
    (hnodes : ∀ n ∈ nodes, n.Plain ∧ Extends schema holder n) (hj : before[j]? = some holder)
    (h : (insertsAt schema below j nodes before.length).Runs d acts d') : Grounded schema before acts := by
  induction nodes generalizing before d acts with
  | nil =>
    obtain ⟨rfl, -⟩ := runs_pure.1 h
    exact .nil
  | cons n rest ih =>
    rw [List.forall_mem_cons] at hnodes
    obtain ⟨⟨hplain, hextends⟩, hrest⟩ := hnodes
    obtain ⟨v, type, inner, d₁, further, hv, ht, hinner, hfurther, rfl⟩ := runs_insertsAt_cons.1 h
    have hlater (more : List Action) : (before ++ more)[j]? = some holder := by
      rw [List.getElem?_append_left (List.getElem?_eq_some_iff.1 hj).1]
      exact hj
    have hself : (before ++ [Action.insert type n (some j) n.columns none])[before.length]? =
        some (.insert type n (some j) n.columns none) := by simp
    have hground := hbelow hplain hself rfl hv ht (by simpa using hinner)
    rw [show before.length + 1 + inner.length =
      (before ++ [Action.insert type n (some j) n.columns none] ++ inner).length by simp; omega] at hfurther
    refine .cons hj hextends (hground.append (ih hrest ?_ hfurther))
    rw [List.append_assoc]
    exact hlater _

/-- The inserts below an entity are grounded, if there is an action for the entity. -/
theorem grounded_of_insertsBelow {room : Nat} {v : Value} (hn : node.Plain) (hj : before[j]? = some holder)
    (hholder : holder.address? = some node) (hv : node.current schema d.root = .ok v) (ht : v.type? = some holder.type)
    (h : (insertsBelow schema limit room node j before.length).Runs d acts d') : Grounded schema before acts := by
  induction room generalizing node before j holder v d d' acts with
  | zero =>
    obtain ⟨-, rfl⟩ := runs_insertsBelow_zero.1 h
    exact .nil
  | succ room ih =>
    obtain ⟨nodes, d₁, hnodes, h⟩ := runs_insertsBelow_succ.1 h
    obtain ⟨e, he, halong⟩ := Edit.exists_of_mem_children hn hnodes hv
    rw [Schema.typeOf?, ht, Option.bind_some] at he
    refine grounded_of_insertsAt ih (fun n hmem => ?_) hj h
    obtain ⟨r, hr, place, hplace, rfl⟩ := halong n hmem
    exact ⟨⟨hn, hplace⟩, node, e, r, place, hholder, he, hr, rfl⟩

/-- The inserts below a root are grounded in the action for the root. -/
theorem grounded_of_root {n room : Nat} {deletes : List Action} {head : Action}
    (hhead : head.address? = some (.root n)) (ht : d.root.type? = some head.type)
    (h : (insertsBelow schema limit room (.root n) deletes.length (deletes.length + 1)).Runs d acts d') :
    Grounded schema (deletes ++ [head]) acts := by
  have hplain : (Address.root n).Plain := trivial
  have hat : (deletes ++ [head])[deletes.length]? = some head := by simp
  exact grounded_of_insertsBelow hplain hat hhead rfl ht (by simpa using h)

end Plan

/-! ## Plans -/

namespace ChangeSet

variable {w w' : Workspace} {root : Value} {set : ChangeSet}

/-- The inserts of a plan that stores an aggregate are grounded. -/
theorem grounded_of_plan
    (h : planInsert limit w root = (.ok set, w') ∨ planUpdate limit w root = (.ok set, w') ∨
      planSave limit w root = (.ok set, w')) :
    ∃ type deletes head inserts, Plan.Starts w.schema limit w.roots.length root type deletes head ∧
      set.actions = deletes ++ head :: inserts ∧ Plan.Grounded w.schema (deletes ++ [head]) inserts := by
  obtain ⟨type, deletes, head, inserts, d, hstarts, rfl, hruns, -⟩ := starts_of_plan h
  have hhead : head.address? = some (.root w.roots.length) ∧ root.type? = some head.type := by
    cases hstarts <;> exact ⟨rfl, ‹_›⟩
  exact ⟨type, deletes, head, inserts, hstarts, rfl, Plan.grounded_of_root hhead.1 hhead.2 hruns⟩

end ChangeSet

/-! ## Updates -/

/-- The address and the addresses above it. -/
def Address.upward : Address → List Address
  | root n => [root n]
  | child parent relation strategy => child parent relation strategy :: parent.upward

/-- The entity of each insert at the address or above it is of the type that its property declares. -/
def Plan.Expects (inserts : List Action) (node : Address) : Prop :=
  ∀ b ∈ inserts, ∀ m ∈ node.upward, b.address? = some m →
    (m.relation?.bind fun relation => relation.property.target) = some b.type

/-- Where the entities are of the types that their properties declare, the paths of inserts are declared. -/
theorem Plan.Grounded.declares {type : String} {n : Nat} {before inserts : List Action}
    (hbefore : ∀ b ∈ before, ∀ m, b.address? = some m → m = .root n ∧ b.type = type)
    (h : Grounded schema before inserts) {a : Action} (ha : a ∈ inserts) {node : Address}
    (hnode : a.address? = some node) (hexpects : Expects inserts node) :
    schema.Declares type .root node.path a.type := by
  induction node generalizing a with
  | root m =>
    obtain ⟨i, hi⟩ := List.mem_iff_getElem?.1 ha
    obtain ⟨-, node, holder, hnode', -, parent, e, r, place, -, -, -, rfl⟩ := h.exists_holder hi
    cases hnode.symm.trans hnode'
  | child parent relation strategy ih =>
    obtain ⟨i, hi⟩ := List.mem_iff_getElem?.1 ha
    obtain ⟨-, node, holder, hnode', hdependency, parent', e, r, place, hparent, he, hr, rfl⟩ := h.exists_holder hi
    cases hnode.symm.trans hnode'
    have htarget : r.target = a.type := by
      have htype := hexpects a ha _ List.mem_cons_self hnode
      exact Option.some.inj ((EntityType.target_of_mem_references hr).symm.trans htype)
    have habove : Expects inserts parent := fun b hb m hm => hexpects b hb m (List.mem_cons_of_mem _ hm)
    rw [← htarget]
    obtain ⟨j, -, hj⟩ := Option.bind_eq_some_iff.1 hdependency
    rcases List.mem_append.1 (List.mem_of_getElem? hj) with hmem | hmem
    · obtain ⟨rfl, rfl⟩ := hbefore holder hmem parent hparent
      exact .here he hr
    · exact (ih (List.mem_of_mem_take hmem) hparent habove).child he hr

namespace ChangeSet

/-- An update begins with deletes for the rows at the declared paths, goes on with the root, and ends with the inserts.
The rows at the path of an insert are cleared if and only if its entity's type is the one declared for the path. It is,
if the entity and those on the way to it are of the types that their properties declare. -/
theorem cleared_of_planUpdate (limit : Nat) (w w' : Workspace) (root : Value) (set : ChangeSet)
    (hplan : planUpdate limit w root = (.ok set, w')) :
    ∃ type id deletes inserts, root.type? = some type ∧ Plan.rootId w.schema root = .ok id ∧
      set.actions = deletes ++ .updateRoot type (.root w.roots.length) :: inserts ∧
      (∀ a ∈ deletes, a.kind = .delete) ∧
      ∀ a ∈ inserts, a.kind = .insert ∧ ∃ node, a.address? = some node ∧
        (.delete a.type id node.path ∈ deletes ↔ w.schema.Declares type .root node.path a.type) ∧
        (Plan.Expects inserts node → .delete a.type id node.path ∈ deletes) := by
  obtain ⟨acts, d, type, hruns, -, rfl, -, -⟩ := runs_of_planWith hplan
  obtain ⟨type, id, deletes, inserts, htype, hid, hdeletes, rfl, hinserts⟩ := Plan.runs_update.1 hruns
  obtain ⟨declared, hdeclared, rfl⟩ := Plan.deletesBelow_eq_ok.1 hdeletes
  refine ⟨type, id, _, inserts, htype, hid, rfl, List.forall_mem_map.2 fun _ _ => rfl, fun a ha => ?_⟩
  have hiff (t : String) (path : Path) :
      Action.delete t id path ∈ declared.reverse.map (fun p => Action.delete p.target id p.path) ↔
        w.schema.Declares type .root path t := by
    rw [← Schema.mem_declared hdeclared ⟨path, t⟩, List.mem_map]
    constructor
    · rintro ⟨p, hp, hdelete⟩
      cases hdelete
      exact List.mem_reverse.1 hp
    · exact fun hp => ⟨_, List.mem_reverse.2 hp, rfl⟩
  have hhead : (Action.updateRoot type (.root w.roots.length)).address? = some (.root w.roots.length) := rfl
  have hground := Plan.grounded_of_root hhead htype hinserts
  obtain ⟨i, hi⟩ := List.mem_iff_getElem?.1 ha
  obtain ⟨hkind, node, -, hnode, -⟩ := hground.exists_holder hi
  have hbefore : ∀ b ∈ declared.reverse.map (fun p => Action.delete p.target id p.path) ++
      [.updateRoot type (.root w.roots.length)], ∀ m, b.address? = some m → m = .root w.roots.length ∧ b.type = type := by
    refine List.forall_mem_append.2 ⟨List.forall_mem_map.2 fun p _ => nofun, List.forall_mem_singleton.2 fun m hm => ?_⟩
    cases hm
    exact ⟨rfl, rfl⟩
  exact ⟨hkind, node, hnode, hiff _ _, fun hexpects => (hiff _ _).2 (hground.declares hbefore ha hnode hexpects)⟩

end ChangeSet

/-! ## A bazaar -/

namespace Bazaar

/-- Orders of items. Special items are no items. -/
def entities : Schema where
  types := [
    ⟨"Order", some "id", [⟨"items", some "Item", .list, none, false⟩]⟩,
    ⟨"Item", some "id", []⟩,
    ⟨"Special", some "id", []⟩]
  sound := by decide
  distinct := by decide

/-- A stored order with one entity of the type in place of its items. -/
def order (type : String) : Value :=
  .entity "Order" [("id", .int 1), ("items", .list [.entity type [("id", .int 7)]])]

end Bazaar

namespace ChangeSet

/-- The rows of items are cleared before the item is inserted again. -/
theorem cleared_of_planUpdate_item :
    ∃ set w', planUpdate 1 (.empty Bazaar.entities) (Bazaar.order "Item") = (.ok set, w') ∧
      set.actions.map (·.kind) = [.delete, .updateRoot, .insert] ∧
      ∃ type id deletes inserts, (Bazaar.order "Item").type? = some type ∧
        Plan.rootId Bazaar.entities (Bazaar.order "Item") = .ok id ∧
        set.actions = deletes ++ .updateRoot type (.root 0) :: inserts ∧
        (∀ a ∈ deletes, a.kind = .delete) ∧
        ∀ a ∈ inserts, a.kind = .insert ∧ ∃ node, a.address? = some node ∧
          (.delete a.type id node.path ∈ deletes ↔ Bazaar.entities.Declares type .root node.path a.type) ∧
          (Plan.Expects inserts node → .delete a.type id node.path ∈ deletes) :=
  ⟨_, _, rfl, rfl, cleared_of_planUpdate 1 (.empty Bazaar.entities) _ (Bazaar.order "Item") _ rfl⟩

/-- A special item in place of an item is inserted, and the rows of special items are not cleared. -/
theorem not_cleared :
    ∃ set w', planUpdate 1 (.empty Bazaar.entities) (Bazaar.order "Special") = (.ok set, w') ∧
      ∃ a ∈ set.actions, a.kind = .insert ∧ a.type = "Special" ∧ ∃ node, a.address? = some node ∧
        Plan.rootId Bazaar.entities (Bazaar.order "Special") = .ok (.int 1) ∧
        .delete a.type (.int 1) node.path ∉ set.actions := by
  refine ⟨_, _, rfl, _, List.mem_of_getElem? (i := 2) rfl, rfl, rfl, _, rfl, rfl, ?_⟩
  decide

end ChangeSet

end Aggregate
