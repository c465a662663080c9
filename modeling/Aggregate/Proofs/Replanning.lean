import Mathlib
import Aggregate.Proofs.Settling
import Aggregate.Proofs.Soundness

/-!
# Planning a settled aggregate

Planning changes nothing in an aggregate that is settled already, and a stored one can always be planned.

- `Edit.children_of_settled`, `Plan.insertsBelow_of_settled`: looking up addresses and planning inserts leave a settled
  aggregate, and the record of writes, as they are;
- `Schema.length_le_of_mem_declared`: where the declared paths can be listed, no entity lies too deep;
- `Address.moved`: addresses in the same aggregate under another number (`Schema.occurrences_moved`);
- `ChangeSet.planSave_of_settled`: the plan that saves a settled aggregate which has an identifier.
-/

namespace Aggregate

variable {hidden : Value.Hidden} {schema : Schema}

/-! ## Looking up addresses -/

namespace Edit

open ExceptT (Runs runs_pure)

variable {node : Address} {p : Property} {holder c : Value} {d : Draft} {o : Occurrence} {e : EntityType}

theorem childrenBy_of_settled (owner : String) (hn : node.Plain) (hv : node.current schema d.root = .ok holder)
    (hr : schema.read holder p.name = .ok c) (hx : p.settled? c = none) (hacc : p.Accepts c) :
    (childrenBy schema node owner p).Runs d
      ((p.parts c).map fun part => .child node ⟨owner, p, node.path.child p.name⟩ part.1) d := by
  obtain ⟨d₁, hd₁, hruns⟩ := runs_childrenBy owner hn hv hr
  rcases hd₁ with ⟨-, rfl⟩ | ⟨x, hsome, -⟩
  · exact (hruns _ _).2 ⟨hacc, rfl, rfl⟩
  · cases hx.symm.trans hsome

theorem childrenAlong_of_settled (hn : o.node.Plain) (hv : o.node.current schema d.root = .ok o.value)
    (he : schema.typeOf? o.value = some e) {rs : List Reference}
    (hrs : ∀ r ∈ rs, r ∈ e.references ∧ o.value.SettledIn r.property ∧
      r.property.Accepts (o.value.field r.property.name)) :
    (childrenAlong schema o.node e.name rs).Runs d ((rs.flatMap fun r => o.childrenBy e r.property).map (·.node)) d := by
  induction rs with
  | nil => exact runs_pure.2 ⟨rfl, rfl⟩
  | cons r rest ih =>
    rw [List.forall_mem_cons] at hrs
    obtain ⟨⟨hr, hsettled, hacc⟩, hrest⟩ := hrs
    have hhere := childrenBy_of_settled e.name hn hv (Schema.read_of_mem_references he hr) hsettled hacc
    refine runs_childrenAlong_cons.2 ⟨_, d, _, hhere, ih hrest, ?_⟩
    rw [List.flatMap_cons, List.map_append, Occurrence.childrenBy, List.map_map]
    rfl

/-- Looking up what an entity holds changes nothing, if the entity is settled. -/
theorem children_of_settled (hn : o.node.Plain) (hv : o.node.current schema d.root = .ok o.value)
    (hacc : o.Accepted schema) (hsettled : schema.Settled o.value) :
    (children schema o.node).Runs d ((o.children schema).map (·.node)) d := by
  obtain ⟨e, he, hacc⟩ := hacc
  refine runs_children.2 ⟨o.value, e, hv, he, ?_⟩
  rw [Occurrence.children, he]
  exact childrenAlong_of_settled hn hv he fun r hr => ⟨hr, hsettled.settledIn he hr, hacc r hr⟩

end Edit

/-! ## Planning inserts -/

namespace Plan

open ExceptT (Runs runs_pure)

variable {limit base n deepest j : Nat} {below : Address → (holder next : Nat) → Edit ChangeError (List Action)}
  {d : Draft} {o : Occurrence} {before cs : List Occurrence}

theorem insertsAt_of_settled (hs : hidden.Spares schema) (hd : d.root.Ordered hidden)
    (hbelow : ∀ {c : Occurrence} {before : List Occurrence}, c ∈ o.children schema →
      ∃ inner, (below c.node (base + before.length) (base + (before ++ [c]).length)).Runs d inner d ∧
        Planned schema deepest base (before ++ [c]) (c.below schema) inner)
    (hcs : ∀ c ∈ cs, Occurs schema n d.root c ∧ c ∈ o.children schema ∧ c.Accepted schema ∧ c.node.depth ≤ deepest)
    (hj : before[j]? = some o) (hdeeper : ∀ x ∈ before.drop (j + 1), o.node.depth < x.node.depth) :
    ∃ acts, (insertsAt schema below (base + j) (cs.map (·.node)) (base + before.length)).Runs d acts d ∧
      Planned schema deepest base before (cs.flatMap (Occurrence.all schema)) acts := by
  induction cs generalizing before with
  | nil => exact ⟨[], runs_pure.2 ⟨rfl, rfl⟩, by simp, by simp, .nil⟩
  | cons c rest ih =>
    rw [List.forall_mem_cons] at hcs
    obtain ⟨⟨hoc, hc, hacc, hdepth⟩, hrest⟩ := hcs
    obtain ⟨e, he, -⟩ := id hacc
    obtain ⟨type, htype, -⟩ := Option.bind_eq_some_iff.1 he
    obtain ⟨hcurrent, -⟩ := hoc.reads hs hd
    obtain ⟨inner, hinner, hplanned⟩ := hbelow hc
    obtain ⟨hplannedc, hnext, hj', hdeeper'⟩ := hplanned.child hoc hc htype hacc hdepth hj hdeeper
    obtain ⟨further, hfurther, hplanned'⟩ := ih hrest hj' hdeeper'
    rw [← hnext] at hfurther
    rw [List.length_append, List.length_singleton, ← Nat.add_assoc] at hinner
    exact ⟨_, runs_insertsAt_cons.2 ⟨c.value, type, inner, d, further, hcurrent, htype, hinner, hfurther, rfl⟩,
      hplannedc.append hplanned'⟩

/-- Planning the inserts below a settled entity changes nothing, and succeeds if no entity lies too deep. -/
theorem insertsBelow_of_settled (hs : hidden.Spares schema) (hd : d.root.Ordered hidden) {room : Nat}
    (ho : Occurs schema n d.root o) (hsettled : schema.Settled o.value) (hacc : ∀ x ∈ o.all schema, x.Accepted schema)
    (hdepth : ∀ x ∈ o.below schema, x.node.depth ≤ deepest) (hdeepest : o.node.depth + room = deepest)
    (hj : before[j]? = some o) (hdeeper : ∀ x ∈ before.drop (j + 1), o.node.depth < x.node.depth) :
    ∃ acts, (insertsBelow schema limit room o.node (base + j) (base + before.length)).Runs d acts d ∧
      Planned schema deepest base before (o.below schema) acts := by
  induction room generalizing o before j with
  | zero =>
    have hnil : o.children schema = [] := by
      refine List.eq_nil_iff_forall_not_mem.2 fun c hc => ?_
      have := hdepth c (Occurrence.mem_below hc Occurrence.mem_all_self)
      have := (Occurrence.depth_of_mem_children hc).1
      omega
    have hruns := Edit.children_of_settled ho.plain (ho.reads hs hd).1 (hacc o Occurrence.mem_all_self) hsettled
    rw [hnil] at hruns
    refine ⟨[], runs_insertsBelow_zero.2 ⟨hruns, rfl⟩, ?_⟩
    rw [Occurrence.below, hnil]
    exact ⟨by simp, by simp, .nil⟩
  | succ room ih =>
    have hchild {c x : Occurrence} (hc : c ∈ o.children schema) (hx : x ∈ c.all schema) : x ∈ o.below schema :=
      Occurrence.mem_below hc hx
    have hruns := Edit.children_of_settled ho.plain (ho.reads hs hd).1 (hacc o Occurrence.mem_all_self) hsettled
    obtain ⟨acts, hacts, hplanned⟩ :
        ∃ acts, (insertsAt schema (insertsBelow schema limit room) (base + j) ((o.children schema).map (·.node))
            (base + before.length)).Runs d acts d ∧ Planned schema deepest base before (o.below schema) acts :=
      insertsAt_of_settled hs hd
        (fun {c before} hc => ih (ho.child hc) (hsettled.of_mem_children hc)
          (fun x hx => hacc x (Occurrence.mem_all_of_mem_below (hchild hc hx)))
          (fun x hx => hdepth x (hchild hc (Occurrence.mem_all_of_mem_below hx)))
          (by have := (Occurrence.depth_of_mem_children hc).1; omega) (List.getElem?_concat_length ..) (by simp))
        (fun c hc => ⟨ho.child hc, hc, hacc c (Occurrence.mem_all_of_mem_below (hchild hc Occurrence.mem_all_self)),
          hdepth c (hchild hc Occurrence.mem_all_self)⟩) hj hdeeper
    exact ⟨acts, runs_insertsBelow_succ.2 ⟨_, d, hruns, hacts⟩, hplanned⟩

end Plan

/-! ## Depths -/

/-- An address along declared references is as deep as its path is long. -/
theorem Schema.Typed.length_path {n : Nat} {type target : String} {node : Address}
    (h : schema.Typed n type node target) : node.path.length = node.depth := by
  induction h with
  | root => rfl
  | @child node _ _ _ _ _ _ _ _ _ ih =>
    rw [Address.path, Path.length_child, ih]
    rfl

/-- Where the declared paths can be listed, no entity of a conforming aggregate lies deeper than the limit. -/
theorem Occurs.depth_le {n deepest : Nat} {type : String} {R : Value} {o : Occurrence} {declared : List DeclaredPath}
    (hdeclared : schema.declared deepest type = .ok declared) (hc : schema.Conforms R) (ht : R.type? = some type)
    (h : Occurs schema n R o) (hacc : o.Accepted schema) : o.node.depth ≤ deepest := by
  obtain ⟨e, he, -⟩ := hacc
  obtain ⟨t, hot, -⟩ := Option.bind_eq_some_iff.1 he
  have htyped := (h.typed hc ht).2 t hot
  cases hroot : o.node.isRoot with
  | true =>
    cases hnode : o.node with
    | root _ => exact Nat.zero_le _
    | child _ _ _ => rw [hnode] at hroot; cases hroot
  | false =>
    rw [← htyped.length_path]
    exact Schema.length_le_of_mem_declared hdeclared ⟨_, t⟩ ((Schema.mem_declared hdeclared _).2 (htyped.declares hroot))

/-! ## Other numbers -/

/-- The same place in the aggregate under another number. -/
def Address.moved (m : Nat) : Address → Address
  | root _ => root m
  | child parent relation strategy => child (parent.moved m) relation strategy

namespace Address

@[simp] theorem links_moved (m : Nat) (node : Address) : (node.moved m).links = node.links := by
  induction node with
  | root _ => rfl
  | child parent relation strategy ih => rw [moved, links, links, ih]

@[simp] theorem path_moved (m : Nat) (node : Address) : (node.moved m).path = node.path := by
  cases node <;> rfl

@[simp] theorem keyColumns_moved (m : Nat) (node : Address) : (node.moved m).keyColumns = node.keyColumns := by
  cases node with
  | root _ => rfl
  | child parent relation strategy => cases strategy <;> rfl

@[simp] theorem parent?_moved (m : Nat) (node : Address) : (node.moved m).parent? = node.parent?.map (moved m) := by
  cases node <;> rfl

end Address

/-- The same entity of the aggregate under another number. -/
def Occurrence.moved (m : Nat) (o : Occurrence) : Occurrence := ⟨o.node.moved m, o.value⟩

theorem Occurrence.children_moved (m : Nat) (o : Occurrence) :
    (o.moved m).children schema = (o.children schema).map (moved m) := by
  simp only [children, moved]
  cases schema.typeOf? o.value with
  | none => rfl
  | some e =>
    rw [List.map_flatMap]
    refine List.flatMap_congr fun r _ => ?_
    simp only [childrenBy, List.map_map, Address.path_moved]
    rfl

theorem Occurrence.all_moved (m : Nat) (o : Occurrence) : (o.moved m).all schema = (o.all schema).map (moved m) := by
  induction o using induction schema with
  | step o ih =>
    rw [all_eq, all_eq, List.map_cons, below, below, children_moved, List.flatMap_map, List.map_flatMap,
      List.flatMap_congr ih]

/-- An aggregate has the same occurrences under each number. -/
theorem Schema.occurrences_moved (n m : Nat) (R : Value) :
    schema.occurrences m R = (schema.occurrences n R).map (Occurrence.moved m) :=
  Occurrence.all_moved m ⟨.root n, R⟩

/-! ## Stored roots -/

namespace Schema

variable {v id : Value} {type : String}

theorem isNew_of_key? (h : schema.key? v = some (type, id)) : schema.isNew v = .ok id.isNull := by
  obtain ⟨ht, name, hname, rfl⟩ := key?_eq_some.1 h
  obtain ⟨e, he, hid⟩ := Option.bind_eq_some_iff.1 hname
  cases v with
  | entity t fields =>
    cases ht
    simp [isNew, entityOf, entity, he, EntityType.requiredId, hid, bind, Except.bind, pure, Except.pure, Value.field]
  | _ => cases ht

end Schema

namespace ChangeSet

open ExceptT (Runs)

variable {w : Workspace} {root id : Value} {type : String} {deepest : Nat} {declared : List DeclaredPath}

theorem planWith_of_runs {plan : Nat → Edit ChangeError (List Action)} {acts : List Action} {d : Draft}
    (h : (plan w.roots.length).Runs ⟨root, w.writes⟩ acts d) (ht : root.type? = some type) :
    planWith w root plan = (.ok ⟨.save, type, some root, acts⟩, ⟨w.schema, w.roots ++ [d.root], d.writes⟩) := by
  rw [planWith, Workspace.begin_eq, h.1, h.2, Plan.rootType_eq_ok.2 ht]
  rfl

/-- A settled aggregate whose root has an identifier can be planned to be saved again, if the paths declared below its
type can be listed. Planning changes nothing in it. -/
theorem planSave_of_settled (hs : hidden.Spares schema) (hw : w.schema = schema)
    (hdeclared : schema.declared deepest type = .ok declared) (hkey : schema.key? root = some (type, id))
    (hid : id ≠ .null) (hroot : root.Ordered hidden) (hc : schema.Conforms root) (hsettled : schema.Settled root)
    (hacc : ∀ o ∈ schema.occurrences w.roots.length root, o.Accepted schema) :
    ∃ inserts, planSave deepest w root = (.ok ⟨.save, type, some root,
        (declared.reverse.map fun p => .delete p.target id p.path) ++ .updateRoot type (.root w.roots.length) :: inserts⟩,
        w.addRoot root) ∧
      Inserts declared.length [⟨.root w.roots.length, root⟩] (Occurrence.below schema ⟨.root w.roots.length, root⟩)
        inserts := by
  subst hw
  obtain ⟨ht, -⟩ := Schema.key?_eq_some.1 hkey
  let o : Occurrence := ⟨.root w.roots.length, root⟩
  obtain ⟨inserts, hruns, hplanned⟩ : ∃ inserts, (Plan.insertsBelow w.schema deepest deepest o.node
        (declared.length + 0) (declared.length + [o].length)).Runs ⟨root, w.writes⟩ inserts ⟨root, w.writes⟩ ∧
      Planned w.schema deepest declared.length [o] (o.below w.schema) inserts :=
    Plan.insertsBelow_of_settled hs hroot .root hsettled hacc
      (fun x hx => (mem_occurrences_iff.1 (Occurrence.mem_all_of_mem_below hx)).depth_le hdeclared hc ht
        (hacc x (Occurrence.mem_all_of_mem_below hx)))
      (Nat.zero_add deepest) rfl (by simp)
  have hupdate : (Plan.update w.schema deepest w.roots.length).Runs ⟨root, w.writes⟩ _ ⟨root, w.writes⟩ :=
    Plan.runs_update.2 ⟨type, id, _, inserts, ht, (Plan.rootId_eq_ok ht).2 ⟨hkey, hid⟩,
      Plan.deletesBelow_eq_ok.2 ⟨declared, hdeclared, rfl⟩, rfl, by simpa using hruns⟩
  have hnew : w.schema.isNew root = .ok false := by
    have hnull : id.isNull = false := by rwa [← Bool.not_eq_true, Value.isNull_iff]
    rw [Schema.isNew_of_key? hkey, hnull]
  exact ⟨inserts, planWith_of_runs (Plan.runs_save.2 (.inr ⟨hnew, hupdate⟩)) ht, hplanned.inserts⟩

end ChangeSet

end Aggregate
