import Mathlib
import Aggregate.Proofs.Edits
import Aggregate.Proofs.Firm
import Aggregate.Proofs.Planning

/-!
# Reading after assigning

Whether the value that was assigned at an address is read there.

- `Strategy.Novel`, `Address.Novel`: no set on the way holds, before the place, what is going to be put there;
- `Strategy.part?_of_rebuild_iff`: one container;
- `Address.current_assign`: all containers up to the root;
- `Visited`: the addresses that are handed out from the root on, which settles the orders of sets;
- `Visited.current_of_assign`, and `Visited.not_current_of_assign`: without the condition the value may be gone.
-/

namespace Aggregate

variable {schema : Schema}

/-! ## One container -/

namespace Strategy

variable {s : Strategy} {c c' x : Value}

/-- A set does not hold the value before a place. -/
def Novel : Strategy → (c x : Value) → Prop
  | setPosition position, .set _ elements, x => x ∉ elements.take position
  | _, _, _ => True

instance : (s : Strategy) → (c x : Value) → Decidable (s.Novel c x)
  | setPosition position, .set _ elements, x => inferInstanceAs (Decidable (x ∉ elements.take position))
  | setPosition _, .null, _ | setPosition _, .bool _, _ | setPosition _, .int _, _ | setPosition _, .text _, _
  | setPosition _, .entity _ _, _ | setPosition _, .list _, _ | setPosition _, .map _, _ | direct, _, _ | mapKey _, _, _
  | listIndex _, _, _ | known _, _, _ => .isTrue trivial

theorem firm_iff_novel (hc : c.IsNodup) : s.Firm c x ↔ s.Novel c x := by
  cases s with
  | setPosition position =>
    cases c with
    | set ordering elements =>
      have htake : (elements.take position).Nodup := List.Nodup.sublist (List.take_sublist ..) hc
      change (elements.take position ++ [x]).Nodup ↔ x ∉ elements.take position
      rw [List.nodup_append]
      refine ⟨fun h hx => h.2.2 x hx x (by simp) rfl, fun h => ⟨htake, by simp, fun a ha b hb => ?_⟩⟩
      rw [List.mem_singleton.1 hb]
      rintro rfl
      exact h ha
    | _ => exact Iff.rfl
  | _ => exact Iff.rfl

/-- What a container was rebuilt around is read in its place if and only if no set held it before the place. -/
theorem part?_of_rebuild_iff (hs : s.Plain) (hc : c.IsNodup) (h : s.rebuild c x = .ok c') :
    s.part? c' = some x ↔ s.Novel c x := by
  refine ⟨fun hx => ?_, fun hx => part?_of_rebuild hs h ((firm_iff_novel hc).2 hx)⟩
  cases s with
  | setPosition position =>
    cases c with
    | set ordering elements =>
      intro hmem
      simp only [rebuild] at h
      split at h <;> cases h
      rename_i hlt
      have htake : (elements.take position).Nodup := List.Nodup.sublist (List.take_sublist ..) hc
      obtain ⟨es, -, hnodup, -, hes⟩ := ValueSet.ofList_linked (elements.set position x)
      obtain ⟨new, hnew⟩ := ValueSet.ofList_append htake ([x] ++ elements.drop (position + 1))
      rw [set_eq_take_append hlt, List.append_assoc] at hes
      cases hnew.symm.trans hes
      -- the value would be in the set twice
      rw [set_eq_take_append hlt, List.append_assoc, hnew, part?, List.getElem?_append_right (by simp),
        List.length_take, Nat.min_eq_left hlt.le, Nat.sub_self] at hx
      exact (List.nodup_append.1 hnodup).2.2 x hmem x (List.mem_of_getElem? hx) rfl
    | _ => trivial
  | _ => trivial

end Strategy

/-! ## All containers up to the root -/

/-- What was set is read. -/
theorem Schema.read_withField {v c : Value} {name : String} (h : schema.read v name = .ok c) (x : Value) :
    schema.read (v.withField name x) name = .ok x := by
  obtain ⟨type, fields, e, rfl, he, hd, -⟩ := Schema.read_eq_ok.1 h
  exact Schema.read_eq_ok.2 ⟨type, _, e, rfl, he, hd, Fields.get_set_self fields name x⟩

namespace Address

variable {R R' x : Value} {node : Address}

/-- No set on the way to an address holds, before the place, what it is rebuilt around when a value is put there. -/
def Novel (schema : Schema) (R : Value) : Address → Value → Prop
  | root _, _ => True
  | child parent relation strategy, x => ∀ holder container inner, parent.current schema R = .ok holder →
      schema.read holder relation.property.name = .ok container → strategy.rebuild container x = .ok inner →
      strategy.Novel container x ∧ parent.Novel schema R (holder.withField relation.property.name inner)

/-- What a property holds that is read at an address is no set with an element twice. -/
theorem isNodup_of_read {holder container : Value} {name : String} (hn : node.Plain) (hR : R.SetsNodup)
    (hholder : node.current schema R = .ok holder) (hread : schema.read holder name = .ok container) :
    container.IsNodup := by
  have hat := at?_of_current hn hholder
  have hshown := Value.shown_of_none node.links R
  rw [← Schema.field_of_read hread]
  exact ((hR.at trivial hshown hat).field trivial fun _ _ => rfl).self

/-- A value that was assigned is read, unless a set on the way has held before the place what it was rebuilt around. -/
theorem current_assign (hn : node.Plain) (hR : R.SetsNodup) (h : node.assign schema R x = .ok R')
    (hx : node.Novel schema R x) : node.current schema R' = .ok x := by
  induction node generalizing x with
  | root n =>
    cases h
    rfl
  | child parent relation strategy ih =>
    obtain ⟨holder, container, inner, hholder, hread, hinner, h⟩ := assign_child.1 h
    obtain ⟨hnovel, habove⟩ := hx holder container inner hholder hread hinner
    have hcurrent := ih hn.1 h habove
    have hnodup := isNodup_of_read hn.1 hR hholder hread
    refine (current_child hn.2).2 ⟨_, inner, hcurrent, Schema.read_withField hread inner, ?_⟩
    exact (Strategy.part?_of_rebuild_iff hn.2 hnodup hinner).2 hnovel

end Address

/-! ## Addresses handed out -/

/-- The addresses that are handed out when the entities which an aggregate holds are looked up, from the root on, and the
root as it stands then: a look-up settles the orders of sets. -/
inductive Visited (schema : Schema) (n : Nat) (root : Value) : Value → List Address → Prop
  | root : Visited schema n root root [.root n]
  | look {R : Value} {node : Address} {known nodes : List Address} {writes : List Write} {d : Draft} :
    Visited schema n root R known → node ∈ known → (Edit.children schema node).Runs ⟨R, writes⟩ nodes d →
    Visited schema n root d.root (known ++ nodes)

/-- Looking up what an entity holds leaves no set with an element twice. -/
theorem Edit.walk_setsNodup : Edit.Walk schema Value.SetsNodup Address.Plain where
  plain := id
  passes := fun {node e r} hn _ _ =>
    { settle := fun {v holder c x} hv hholder hread hx => by
        have hat := Address.at?_of_current hn hholder
        refine Value.everywhere_put Value.lasting_isNodup hv hat fun hnodup => ?_
        refine Value.everywhere_withField Value.lasting_isNodup hnodup fun hshows => ?_
        have hc := Value.Everywhere.field trivial hnodup hshows
        rw [Schema.field_of_read hread] at hc
        unfold Property.settled? at hx
        split at hx <;> cases hx
        exact hc
      child := fun hpart => ⟨hn, Property.plain_of_mem_parts hpart⟩ }

namespace Visited

variable {n : Nat} {root R R' x : Value} {node : Address} {known : List Address}

theorem setsNodup (h : Visited schema n root R known) (hroot : root.SetsNodup) :
    R.SetsNodup ∧ ∀ node ∈ known, node.Plain := by
  induction h with
  | root => exact ⟨hroot, List.forall_mem_singleton.2 trivial⟩
  | look _ hmem hruns ih =>
    obtain ⟨hR, hknown⟩ := ih
    obtain ⟨hR', hnodes⟩ := Edit.children_keeps Edit.walk_setsNodup (hknown _ hmem) hruns hR
    exact ⟨hR', List.forall_mem_append.2 ⟨hknown, fun node hnode => (hnodes node hnode).1⟩⟩

/-- A value that was assigned at an address handed out is read there, unless a set on the way has held before the place
what it was rebuilt around. -/
theorem current_of_assign (h : Visited schema n root R known) (hroot : root.SetsNodup) (hnode : node ∈ known)
    (hassign : node.assign schema R x = .ok R') (hx : node.Novel schema R x) : node.current schema R' = .ok x := by
  obtain ⟨hR, hplain⟩ := h.setsNodup hroot
  exact Address.current_assign (hplain node hnode) hR hassign hx

end Visited

/-! ## The tags of an order -/

namespace Shop

/-- The addresses of what the order holds, and the order once they were looked up: its tags are in order of insertion. -/
def looked : Except ResolutionError (List Address) × Draft := Edit.children entities (.root 0) ⟨order, []⟩

/-- The address of a tag of the order. -/
def tagAt (position : Nat) : Address :=
  .child (.root 0) ⟨"Order", ⟨"tags", some "Tag", .set, none, false⟩, ⟨["tags"]⟩⟩ (.setPosition position)

theorem visited_tags : ∃ known, Visited entities 0 order looked.2.root known ∧ tagAt 1 ∈ known := by
  have hruns : (Edit.children entities (.root 0)).Runs ⟨order, []⟩ _ looked.2 := ⟨rfl, rfl⟩
  refine ⟨_, .look .root List.mem_cons_self hruns, ?_⟩
  decide +kernel

end Shop

namespace Visited

/-- A tag gets another name. -/
theorem current_of_assign_tag :
    Shop.order.SetsNodup ∧ ∃ known R', Visited Shop.entities 0 Shop.order Shop.looked.2.root known ∧
      Shop.tagAt 1 ∈ known ∧
      (Shop.tagAt 1).assign Shop.entities Shop.looked.2.root (.entity "Tag" [("name", .text "sale")]) = .ok R' ∧
      (Shop.tagAt 1).Novel Shop.entities Shop.looked.2.root (.entity "Tag" [("name", .text "sale")]) ∧
      (Shop.tagAt 1).current Shop.entities R' = .ok (.entity "Tag" [("name", .text "sale")]) := by
  have hroot : Shop.order.SetsNodup := by decide
  have hnovel : (Shop.tagAt 1).Novel Shop.entities Shop.looked.2.root (.entity "Tag" [("name", .text "sale")]) := by
    intro holder container inner hholder hread _
    cases hholder
    cases hread
    refine ⟨?_, trivial⟩
    decide +kernel
  obtain ⟨known, hknown, hnode⟩ := Shop.visited_tags
  exact ⟨hroot, known, _, hknown, hnode, rfl, hnovel, hknown.current_of_assign hroot hnode rfl hnovel⟩

/-- A tag that is made equal to the one before is gone. -/
theorem not_current_of_assign :
    ¬ ∀ (schema : Schema) (n : Nat) (root R R' x : Value) (known : List Address) (node : Address), root.SetsNodup →
      Visited schema n root R known → node ∈ known → node.assign schema R x = .ok R' →
      node.current schema R' = .ok x := by
  intro h
  obtain ⟨known, hknown, hnode⟩ := Shop.visited_tags
  have hcurrent := h Shop.entities 0 Shop.order Shop.looked.2.root _ (.entity "Tag" [("name", .text "new")]) known
    (Shop.tagAt 1) (by decide) hknown hnode rfl
  exact absurd hcurrent (by decide +kernel)

end Visited

end Aggregate
