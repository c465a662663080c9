import Mathlib
import Aggregate.Proofs.Assigning

/-!
# What an assignment leaves alone

An assignment changes an aggregate at its address only, where no set on the way holds an element already that it gets.

- `Strategy.replace`, `Value.replace`: a value with another one at the end of some links, nothing dropped;
- `Strategy.Distinct`, `Address.Distinct`: the elements that sets on the way get differ from their other elements;
- `Link.Diverge`: where lists of links part, they lead to different properties or to different places of a container;
- `Address.assign_local`: the root after an assignment, and what is read at the addresses that diverge from it.
-/

namespace Aggregate

variable {schema : Schema}

/-! ## One container -/

namespace Strategy

variable {s t : Strategy} {c c' x : Value}

/-- The container with another value at a place, a set in order of insertion; a map takes a new key. -/
def replace : Strategy → (c x : Value) → Value
  | direct, _, x => x
  | mapKey key, .map entries, x => .map (Keyed.insert key x entries)
  | listIndex index, .list items, x => .list (items.set index x)
  | setPosition position, .set _ elements, x => .set .linked (elements.set position x)
  | _, c, _ => c

/-- The other elements of a set differ from the one that takes a place. -/
def Distinct : Strategy → (c x : Value) → Prop
  | setPosition position, .set _ elements, x => x ∉ elements.eraseIdx position
  | _, _, _ => True

theorem nodup_set {position : Nat} {elements : List Value} (helements : elements.Nodup)
    (hx : x ∉ elements.eraseIdx position) (hlt : position < elements.length) : (elements.set position x).Nodup := by
  rw [List.eraseIdx_eq_take_drop_succ] at hx
  rw [set_eq_take_append hlt, List.append_assoc, List.singleton_append, List.nodup_middle, List.nodup_cons]
  refine ⟨hx, ?_⟩
  rw [← List.eraseIdx_eq_take_drop_succ]
  exact helements.sublist (List.eraseIdx_sublist ..)

theorem Distinct.novel (h : s.Distinct c x) : s.Novel c x := by
  cases s with
  | setPosition position =>
    cases c with
    | set ordering elements =>
      intro hmem
      apply h
      rw [List.eraseIdx_eq_take_drop_succ]
      exact List.mem_append_left _ hmem
    | _ => trivial
  | _ => trivial

/-- A container that is rebuilt around a new value has it in its place, and all others where they were. -/
theorem eq_replace_of_rebuild (hs : s.Plain) (hc : c.IsNodup) (h : s.rebuild c x = .ok c') (hx : s.Distinct c x) :
    c' = s.replace c x := by
  cases s with
  | known _ => exact hs.elim
  | direct =>
    cases h
    rfl
  | mapKey key =>
    cases c with
    | map entries =>
      cases h
      rfl
    | _ => cases h
  | listIndex index =>
    cases c with
    | list items =>
      simp only [rebuild] at h
      split at h <;> cases h
      rfl
    | _ => cases h
  | setPosition position =>
    cases c with
    | set ordering elements =>
      simp only [rebuild] at h
      split at h <;> cases h
      rename_i hlt
      obtain ⟨es, -, -, hall, hes⟩ := ValueSet.ofList_linked (elements.set position x)
      rw [hes, hall (nodup_set hc hx hlt)]
      rfl
    | _ => cases h

/-- At another place that the container has for its kind, nothing changes. -/
theorem extract_replace (hs : s.Plain) (ht : t.Plain) (hkind : t.container = s.container) (hne : t ≠ s) :
    t.extract (some (s.replace c x)) = t.extract (some c) := by
  cases s with
  | known _ => exact hs.elim
  | direct =>
    cases t with
    | direct => exact absurd rfl hne
    | known _ => exact ht.elim
    | _ => cases hkind
  | mapKey key =>
    cases t with
    | mapKey other =>
      have hkey : other ≠ key := fun h => hne (congrArg mapKey h)
      cases c with
      | map entries => simp only [replace, extract, Keyed.lookup_insert_of_ne hkey]
      | _ => rfl
    | _ => cases hkind
  | listIndex index =>
    cases t with
    | listIndex other =>
      have hindex : index ≠ other := fun h => hne (congrArg listIndex h.symm)
      cases c with
      | list items => simp only [replace, extract, List.getElem?_set_ne hindex]
      | _ => rfl
    | _ => cases hkind
  | setPosition position =>
    cases t with
    | setPosition other =>
      have hposition : position ≠ other := fun h => hne (congrArg setPosition h.symm)
      cases c with
      | set ordering elements => simp only [replace, extract, List.getElem?_set_ne hposition]
      | _ => rfl
    | _ => cases hkind

end Strategy

/-! ## All containers up to the root -/

namespace Value

/-- The value with another one at the end of some links, the sets on the way in order of insertion. -/
def replace : List Link → (v x : Value) → Value
  | [], _, x => x
  | l :: rest, v, x =>
    v.withField l.property
      (l.strategy.replace (v.field l.property) ((l.part? v).elim x fun w => replace rest w x))

theorem replace_append {ls : List Link} {v w : Value} (h : at? ls v = some w) (ms : List Link) (x : Value) :
    replace (ls ++ ms) v x = replace ls v (replace ms w x) := by
  induction ls generalizing v with
  | nil =>
    cases h
    rfl
  | cons l ls ih =>
    obtain ⟨u, hu, h⟩ := Option.bind_eq_some_iff.1 h
    simp only [List.cons_append, replace, hu, Option.elim_some, ih h]

end Value

namespace Address

variable {R R' x : Value} {node : Address}

/-- The elements that the sets on the way to an address get, when a value is put there, differ from their others. -/
def Distinct (schema : Schema) (R : Value) : Address → Value → Prop
  | root _, _ => True
  | child parent relation strategy, x => ∀ holder container inner, parent.current schema R = .ok holder →
      schema.read holder relation.property.name = .ok container → strategy.rebuild container x = .ok inner →
      strategy.Distinct container x ∧ parent.Distinct schema R (holder.withField relation.property.name inner)

theorem Distinct.novel (h : node.Distinct schema R x) : node.Novel schema R x := by
  induction node generalizing x with
  | root n => trivial
  | child parent relation strategy ih =>
    intro holder container inner hholder hread hinner
    obtain ⟨hhere, habove⟩ := h holder container inner hholder hread hinner
    exact ⟨hhere.novel, ih habove⟩

/-- The root after an assignment differs at the address only. -/
theorem eq_replace_of_assign (hn : node.Plain) (hR : R.SetsNodup) (h : node.assign schema R x = .ok R')
    (hx : node.Distinct schema R x) : R' = R.replace node.links x := by
  induction node generalizing x with
  | root n =>
    cases h
    rfl
  | child parent relation strategy ih =>
    obtain ⟨holder, container, inner, hholder, hread, hinner, h⟩ := assign_child.1 h
    obtain ⟨hhere, habove⟩ := hx holder container inner hholder hread hinner
    have hrebuilt := Strategy.eq_replace_of_rebuild hn.2 (isNodup_of_read hn.1 hR hholder hread) hinner hhere
    rw [ih hn.1 h habove, links, Value.replace_append (at?_of_current hn.1 hholder)]
    congr 1
    rw [Value.replace, Schema.field_of_read hread, hrebuilt]
    cases Link.part? ⟨relation.property.name, strategy⟩ holder <;> rfl

end Address

/-! ## Addresses that diverge -/

namespace Link

/-- Two links lead to different properties, or to different places in a container that has both. -/
def Parts (m l : Link) : Prop :=
  m.property = l.property → m.strategy.container = l.strategy.container ∧ m.strategy ≠ l.strategy

/-- The first links in which two lists differ part. -/
inductive Diverge : List Link → List Link → Prop
  | here {m l : Link} {ms ls : List Link} : m.Parts l → Diverge (m :: ms) (l :: ls)
  | further {l : Link} {ms ls : List Link} : Diverge ms ls → Diverge (l :: ms) (l :: ls)

theorem Diverge.ne_nil {ms ls : List Link} (h : Diverge ms ls) : ms ≠ [] ∧ ls ≠ [] := by
  cases h with
  | here _ => exact ⟨List.cons_ne_nil _ _, List.cons_ne_nil _ _⟩
  | further _ => exact ⟨List.cons_ne_nil _ _, List.cons_ne_nil _ _⟩

/-- Lists diverge before the last link of one of them, or in their last links. -/
theorem Diverge.concat {m l : Link} {ms ls : List Link} (h : Diverge (ms ++ [m]) (ls ++ [l])) :
    Diverge ms (ls ++ [l]) ∨ Diverge (ms ++ [m]) ls ∨ ms = ls ∧ m.Parts l := by
  induction ls generalizing ms with
  | nil =>
    cases ms with
    | nil =>
      cases h with
      | here hparts => exact .inr (.inr ⟨rfl, hparts⟩)
      | further h => exact absurd rfl h.ne_nil.1
    | cons a ms =>
      cases h with
      | here hparts => exact .inl (.here hparts)
      | further h => exact absurd rfl h.ne_nil.2
  | cons b ls ih =>
    cases ms with
    | nil =>
      cases h with
      | here hparts => exact .inr (.inl (.here hparts))
      | further h => exact absurd rfl h.ne_nil.1
    | cons a ms =>
      cases h with
      | here hparts => exact .inl (.here hparts)
      | further h =>
        rcases ih h with h | h | ⟨rfl, hparts⟩
        · exact .inl (.further h)
        · exact .inr (.inl (.further h))
        · exact .inr (.inr ⟨rfl, hparts⟩)

end Link

/-- What was set in one property does not show in the others. -/
theorem Schema.read_withField_of_ne {name other : String} (h : other ≠ name) (v x : Value) :
    schema.read (v.withField name x) other = schema.read v other := by
  cases v with
  | entity type fields =>
    cases he : schema.entity? type with
    | none => simp [read, bean, entityOf, Value.withField, entity, he, bind, Except.bind]
    | some e =>
      have hn := entity?_name he
      simp [read, bean, entityOf, Value.withField, entity, he, bind, Except.bind, Bean.ofValue, hn, Bean.get,
        Fields.get_set_of_ne h]
  | _ => rfl

namespace Address

variable {R R' x v : Value} {node : Address}

/-- Addresses with the same links read the same value. -/
theorem current_of_links {p q : Address} (hp : p.Plain) (hq : q.Plain) (hlinks : p.links = q.links)
    (h : p.current schema R = .ok v) : q.current schema R = .ok v := by
  induction p generalizing q v with
  | root n =>
    cases q with
    | root k => exact h
    | child _ _ _ => simp [links] at hlinks
  | child parent relation strategy ih =>
    cases q with
    | root k => simp [links] at hlinks
    | child parent' relation' strategy' =>
      obtain ⟨hparents, hlast⟩ := List.append_inj' hlinks rfl
      simp only [List.cons.injEq, Link.mk.injEq, and_true] at hlast
      obtain ⟨hname, rfl⟩ := hlast
      obtain ⟨holder, container, hholder, hread, hpart⟩ := (current_child hp.2).1 h
      exact (current_child hq.2).2 ⟨holder, container, ih hp.1 hq.1 hparents hholder, hname ▸ hread, hpart⟩

/-- Where the holder differs in the value of one link only, what parts from this link reads the same. -/
theorem current_child_of_parts {parent : Address} {relation : Relation} {strategy : Strategy} {holder container : Value}
    {l : Link} (hs : strategy.Plain) (hl : l.strategy.Plain) (hparts : Link.Parts ⟨relation.property.name, strategy⟩ l)
    (hread : schema.read holder l.property = .ok container) (hholder : parent.current schema R = .ok holder)
    (hholder' : parent.current schema R' = .ok (holder.withField l.property (l.strategy.replace container x))) :
    (child parent relation strategy).current schema R' = (child parent relation strategy).current schema R := by
  rw [current_child_eq hs, current_child_eq hs, hholder, hholder']
  simp only [readRelation, bind, Except.bind]
  by_cases hname : relation.property.name = l.property
  · obtain ⟨hkind, hne⟩ := hparts hname
    rw [hname, hread, Schema.read_withField hread]
    simp only [Except.mapError, Strategy.extract_replace hl hs hkind hne]
  · rw [Schema.read_withField_of_ne hname]

/-- At an address that diverges from that of an assignment the same is read as before. -/
theorem current_of_diverge (hn : node.Plain) (hR : R.SetsNodup) (h : node.assign schema R x = .ok R')
    (hx : node.Distinct schema R x) {other : Address} (ho : other.Plain)
    (hdiverge : Link.Diverge other.links node.links) : other.current schema R' = other.current schema R := by
  induction node generalizing x other with
  | root n => exact absurd rfl hdiverge.ne_nil.2
  | child parent relation strategy ih =>
    obtain ⟨holder, container, inner, hholder, hread, hinner, h⟩ := assign_child.1 h
    obtain ⟨hhere, habove⟩ := hx holder container inner hholder hread hinner
    have hholder' := current_assign hn.1 hR h habove.novel
    rw [Strategy.eq_replace_of_rebuild hn.2 (isNodup_of_read hn.1 hR hholder hread) hinner hhere] at hholder'
    -- the induction on the other address carries on where the two have parted already
    induction other with
    | root k => exact absurd rfl hdiverge.ne_nil.1
    | child above relation' strategy' iho =>
      rcases Link.Diverge.concat hdiverge with hother | habove' | ⟨hlinks, hparts⟩
      · rw [current_child_eq ho.2, current_child_eq ho.2, iho ho.1 hother]
      · exact ih hn.1 h habove ho habove'
      · exact current_child_of_parts ho.2 hn.2 hparts hread (current_of_links hn.1 ho.1 hlinks.symm hholder)
          (current_of_links hn.1 ho.1 hlinks.symm hholder')

/-- **Assignments are local.** Where the elements of sets differ, also those that sets get on the way, an assignment
puts its value in place and changes nothing else, but that the sets on the way come back in order of insertion; at each
address that diverges from it the same is read as before, or reading fails as before. -/
theorem assign_local (hn : node.Plain) (hR : R.SetsNodup) (h : node.assign schema R x = .ok R')
    (hx : node.Distinct schema R x) :
    R' = R.replace node.links x ∧ node.current schema R' = .ok x ∧
      ∀ other : Address, other.Plain → Link.Diverge other.links node.links →
        other.current schema R' = other.current schema R :=
  ⟨eq_replace_of_assign hn hR h hx, current_assign hn hR h hx.novel, fun _ => current_of_diverge hn hR h hx⟩

/-- A tag that gets another name leaves the other tag alone. -/
theorem assign_local_tag :
    ∃ R', Shop.looked.2.root.SetsNodup ∧
      (Shop.tagAt 1).assign Shop.entities Shop.looked.2.root (.entity "Tag" [("name", .text "sale")]) = .ok R' ∧
      (Shop.tagAt 1).Distinct Shop.entities Shop.looked.2.root (.entity "Tag" [("name", .text "sale")]) ∧
      R' = Shop.looked.2.root.replace (Shop.tagAt 1).links (.entity "Tag" [("name", .text "sale")]) ∧
      (Shop.tagAt 0).current Shop.entities R' = .ok (.entity "Tag" [("name", .text "new")]) := by
  have hR : Shop.looked.2.root.SetsNodup := by decide +kernel
  have hx : (Shop.tagAt 1).Distinct Shop.entities Shop.looked.2.root (.entity "Tag" [("name", .text "sale")]) := by
    intro holder container inner hholder hread _
    cases hholder
    cases hread
    refine ⟨?_, trivial⟩
    change Value.entity "Tag" [("name", .text "sale")] ∉
      List.eraseIdx [.entity "Tag" [("name", .text "new")], .entity "Tag" [("name", .text "old")]] 1
    decide
  have hn : (Shop.tagAt 1).Plain := ⟨trivial, trivial⟩
  obtain ⟨hlocal, -, hother⟩ := assign_local hn hR rfl hx
  have htag := hother (Shop.tagAt 0) ⟨trivial, trivial⟩ (.here fun _ => ⟨rfl, by decide⟩)
  exact ⟨_, hR, rfl, hx, hlocal, htag.trans rfl⟩

end Address

end Aggregate
