import Mathlib
import Aggregate.Proofs.Execution

/-!
# Entities stay in place

Where the addresses of a plan lead once an aggregate is planned.

- `Value.not_lost_of_at?`: nothing is lost as long as everything is found;
- `Plan.kept_of_insertsBelow`: planning changes orderings of sets only, unless an address leads to nothing afterwards;
- `InPlace`: an action is for an entity of the aggregate, and finds it;
- `Plan.in_place_of_begin`: all actions of a plan find the entities they are for, in this case;
- `Plan.not_in_place`: where two elements of a set differ in nothing but orderings of sets, one of them may get lost.
-/

namespace Aggregate

open Value (Lost)

variable {schema : Schema}

/-- Nothing is lost as long as everything is found. -/
theorem Value.not_lost_of_at? {tame : Hidden} {u e : Value} {places : List (List Link)}
    (h : ∀ p ∈ places, at? p e ≠ none) : ¬ Lost tame u places e := by
  induction places with
  | nil => exact not_lost_nil
  | cons p rest ih =>
    rw [List.forall_mem_cons] at h
    intro hlost
    exact ih h.2 (hlost.of_cons h.1)

/-- The addresses of one aggregate do not leave it. -/
theorem Edit.walk_origin {P : Value → Prop} (hw : Walk schema P Address.Plain) (n : Nat) :
    Walk schema P fun node => node.Plain ∧ node.origin = n where
  plain hn := hn.1
  passes hn hfound hr :=
    { settle := (hw.passes hn.1 hfound hr).settle
      child := fun hpart => ⟨(hw.passes hn.1 hfound hr).child hpart, hn.2⟩ }

namespace Plan

variable {limit n base : Nat} {d d' : Draft} {acts : List Action}

/-- Planning what lies below a root changes orderings of sets only, unless two elements of a set differ in nothing else
and an address leads to nothing afterwards. -/
theorem kept_of_insertsBelow (hd : d.root.Canonical)
    (h : (insertsBelow schema limit limit (.root n) base (base + 1)).Runs d acts d')
    (hkept : d.root.unlabel.SetsNodup ∨
      ∀ a ∈ acts, ∀ node, a.address? = some node → node.origin = n → ∃ v, node.current schema d'.root = .ok v) :
    d'.root.Canonical ∧ d'.root.unlabel = d.root.unlabel ∧
      Inserts base [⟨.root n, d.root⟩] (Occurrence.below schema ⟨.root n, d.root⟩) acts := by
  have hs : Value.Hidden.Nested (fun _ _ => false) (fun _ _ => false) schema := ⟨le_rfl, fun _ _ _ _ _ => rfl⟩
  obtain ⟨hcanonical, hwalk⟩ := insertsBelow_of_root hs hd h
  refine ⟨hcanonical, ?_⟩
  have hfound : ¬ Lost (fun _ _ => false) d.root.unlabel ([] :: places acts) d'.root.unlabel := by
    intro hlost
    rcases hkept with hsets | hresolves
    · rw [← Value.unlabel_unlabel] at hsets
      exact hlost.1 hsets
    · refine Value.not_lost_of_at? (List.forall_mem_cons.2 ⟨by simp [Value.at?], fun p hp => ?_⟩) hlost
      obtain ⟨a, ha, hp⟩ := List.mem_filterMap.1 hp
      obtain ⟨node, hnode, rfl⟩ := Option.map_eq_some_iff.1 hp
      have hroot : (Address.root n).Plain ∧ (Address.root n).origin = n := ⟨trivial, rfl⟩
      obtain ⟨-, hdraws⟩ := insertsBelow_keeps (Edit.walk_origin Edit.walk_canonical n) limit _ _ _ _ _ _ hroot h hd
      obtain ⟨type, node', holder, v, x, rfl, ⟨hplain, horigin⟩, -⟩ := hdraws a ha
      cases hnode
      obtain ⟨y, hy⟩ := hresolves _ ha node rfl horigin
      have hat := Address.at?_of_current hplain hy
      rw [Value.unlabel, Value.at?_erase (Value.shown_of_none node.links d'.root), hat]
      exact Option.some_ne_none _
  obtain ⟨hlabel, -, hinserts⟩ := hwalk.resolve_right hfound
  exact ⟨hlabel, hinserts⟩

end Plan

/-- The action is for the entity, and finds it up to the orderings of sets. -/
structure InPlace (w : Workspace) (o : Occurrence) (a : Action) : Prop where
  address_eq : a.address? = some o.node
  type_eq : o.value.type? = some a.type
  current_eq : ∃ v, w.current o.node = .ok v ∧ v.unlabel = o.value.unlabel

/-- An entity of an aggregate is where it was in each aggregate that differs in orderings of sets only. -/
theorem Workspace.Holds.current_of_occurs {w : Workspace} {n : Nat} {root R : Value} {o : Occurrence}
    (hw : w.Holds schema n R) (hR : R.Canonical) (hlabel : R.unlabel = root.unlabel) (ho : Occurs schema n root o) :
    ∃ v, w.current o.node = .ok v ∧ v.unlabel = o.value.unlabel := by
  have hs : Value.Hidden.Spares (fun _ _ => false) schema := fun _ _ _ _ _ => rfl
  have herased : Occurs schema n R.unlabel (o.erase fun _ _ => false) := by
    rw [hlabel]
    exact ho.erase hs
  obtain ⟨v, hv, hvo, -⟩ := herased.current hs hR
  refine ⟨v, ?_, hvo⟩
  rw [hw.current ho.origin_eq]
  exact hv

/-- Inserts are in place if what they insert is. -/
theorem Inserts.in_place {w : Workspace} {base : Nat} {before xs : List Occurrence} {acts : List Action}
    (h : Inserts base before xs acts)
    (hx : ∀ o ∈ xs, ∃ v, w.current o.node = .ok v ∧ v.unlabel = o.value.unlabel) :
    List.Forall₂ (InPlace w) xs acts := by
  induction h with
  | nil => exact .nil
  | cons htype _ _ _ _ ih =>
    rw [List.forall_mem_cons] at hx
    exact .cons ⟨rfl, htype, hx.1⟩ (ih hx.2)

namespace Plan

variable {limit n : Nat} {root : Value} {type : String} {deletes : List Action} {head : Action}

theorem Starts.in_place_head {w : Workspace} (h : Starts schema limit n root type deletes head)
    (hroot : ∃ v, w.current (.root n) = .ok v ∧ v.unlabel = root.unlabel) : InPlace w ⟨.root n, root⟩ head := by
  cases h with
  | insert htype => exact ⟨rfl, htype, hroot⟩
  | update htype _ _ => exact ⟨rfl, htype, hroot⟩

/-- After planning to store an aggregate, it is what it was but for the orderings of sets, and the actions that store
entities are for its entities, one for each, and find them. This takes that the elements of each set differ in more than
the orderings of sets; if they do not, an address leads to nothing, or else the same holds. -/
theorem in_place_of_begin (limit : Nat) (w w' : Workspace) (root : Value) (actions : List Action)
    (hroot : root.Canonical)
    (hplan : w.begin root (insert w.schema limit) = (.ok actions, w') ∨
      w.begin root (update w.schema limit) = (.ok actions, w') ∨
      w.begin root (save w.schema limit) = (.ok actions, w'))
    (hkept : root.unlabel.SetsNodup ∨
      ∀ a ∈ actions, ∀ node, a.address? = some node → ∃ v, w'.current node = .ok v) :
    (w'.root w.roots.length).unlabel = root.unlabel ∧
      ∃ deletes stored, actions = deletes ++ stored ∧ (∀ a ∈ deletes, a.kind = .delete) ∧
        List.Forall₂ (InPlace w') (w.schema.occurrences w.roots.length root) stored := by
  have hdraft : ∃ d, ((insert w.schema limit w.roots.length).Runs ⟨root, w.writes⟩ actions d ∨
        (update w.schema limit w.roots.length).Runs ⟨root, w.writes⟩ actions d ∨
        (save w.schema limit w.roots.length).Runs ⟨root, w.writes⟩ actions d) ∧
      w'.Holds w.schema w.roots.length d.root := by
    rcases hplan with hplan | hplan | hplan <;> obtain ⟨d, hruns, hschema, hroots⟩ := Workspace.runs_of_begin hplan
    · exact ⟨d, .inl hruns, hschema, by simp [hroots]⟩
    · exact ⟨d, .inr (.inl hruns), hschema, by simp [hroots]⟩
    · exact ⟨d, .inr (.inr hruns), hschema, by simp [hroots]⟩
  obtain ⟨d, hruns, hholds⟩ := hdraft
  obtain ⟨type, deletes, head, inserts, hstarts, rfl, hinserts⟩ := starts_of_runs hruns
  obtain ⟨hcanonical, hlabel, hinserts⟩ := kept_of_insertsBelow hroot hinserts <| by
    refine hkept.imp_right fun hresolves a ha node hnode horigin => ?_
    have hmem : a ∈ deletes ++ head :: inserts := List.mem_append_right _ (List.mem_cons_of_mem _ ha)
    obtain ⟨v, hv⟩ := hresolves a hmem node hnode
    rw [hholds.current horigin] at hv
    exact ⟨v, hv⟩
  have hcurrent : ∀ o ∈ w.schema.occurrences w.roots.length root,
      ∃ v, w'.current o.node = .ok v ∧ v.unlabel = o.value.unlabel := by
    intro o ho
    exact hholds.current_of_occurs hcanonical hlabel (mem_occurrences_iff.1 ho)
  rw [Schema.occurrences, Occurrence.all_eq, List.forall_mem_cons] at hcurrent
  refine ⟨by rw [hholds.root, hlabel], deletes, head :: inserts, rfl, hstarts.kind_deletes, ?_⟩
  rw [Schema.occurrences, Occurrence.all_eq]
  exact .cons (hstarts.in_place_head hcurrent.1) (hinserts.in_place hcurrent.2)

end Plan

/-! ## A depot -/

namespace Depot

/-- Pallets with a set of crates, and crates with a set of labels. -/
def entities : Schema where
  types := [
    ⟨"Pallet", some "id", [⟨"crates", some "Crate", .set, none, false⟩]⟩,
    ⟨"Crate", some "id", [⟨"labels", some "Label", .set, none, false⟩]⟩,
    ⟨"Label", some "id", []⟩]
  sound := by decide
  distinct := by decide

/-- A crate with these labels. -/
def crate (ordering : SetOrdering) (labels : List String) : Value :=
  .entity "Crate" [("labels", .set ordering (labels.map fun label => .entity "Label" [("text", .text label)]))]

/-- A stored pallet with these crates, in no promised order. -/
def pallet (crates : List Value) : Value := .entity "Pallet" [("crates", .set .hashed crates), ("id", .int 1)]

end Depot

namespace Plan

/-- Two crates with a label each, all sets in no promised order. -/
theorem in_place_of_begin_pallet :
    ∃ root actions w', root = Depot.pallet [Depot.crate .hashed ["dry"], Depot.crate .hashed ["cold"]] ∧
      root.Canonical ∧ root.unlabel.SetsNodup ∧
      (Workspace.empty Depot.entities).begin root (update Depot.entities 2) = (.ok actions, w') ∧
      (w'.root 0).unlabel = root.unlabel ∧
      ∃ deletes stored, actions = deletes ++ stored ∧ (∀ a ∈ deletes, a.kind = .delete) ∧
        List.Forall₂ (InPlace w') (Depot.entities.occurrences 0 root) stored := by
  let root := Depot.pallet [Depot.crate .hashed ["dry"], Depot.crate .hashed ["cold"]]
  have hroot : root.Canonical := by decide
  have hsets : root.unlabel.SetsNodup := by decide
  refine ⟨root, _, _, rfl, hroot, hsets, rfl, ?_⟩
  exact in_place_of_begin 2 (.empty Depot.entities) _ root _ hroot (.inr (.inl rfl)) (.inl hsets)

/-- Of two crates without labels, whose sets of labels differ in their orderings, one gets lost. -/
theorem not_in_place :
    ∃ root actions w', root = Depot.pallet [Depot.crate .linked [], Depot.crate .hashed []] ∧
      root.Canonical ∧ root.SetsNodup ∧
      (Workspace.empty Depot.entities).begin root (insert Depot.entities 2) = (.ok actions, w') ∧
      (w'.root 0).unlabel ≠ root.unlabel ∧
      ∃ a ∈ actions, ∃ node, a.address? = some node ∧ ∀ v, w'.current node ≠ .ok v := by
  let root := Depot.pallet [Depot.crate .linked [], Depot.crate .hashed []]
  have hroot : root.Canonical := by decide
  have hsets : root.SetsNodup := by decide
  refine ⟨root, _, _, rfl, hroot, hsets, rfl, by decide +kernel, ?_⟩
  refine ⟨_, List.mem_cons_of_mem _ (List.mem_cons_of_mem _ List.mem_cons_self), _, rfl, fun v hv => ?_⟩
  exact nomatch hv

end Plan

end Aggregate
