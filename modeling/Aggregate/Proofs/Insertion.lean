import Mathlib
import Aggregate.Plan.Insertion
import Aggregate.Proofs.Edits

/-!
# Inserts below an entity

The walk that plans inserts, against the occurrences of the aggregate.

- `Inserts`: one insert for each of some occurrences, in their order, each after the action for its holder;
- `Plan.insertsBelow_of_occurs`: what a walk that succeeds has planned, unless a set has lost elements;
- `Plan.insertsBelow_ok`: a walk succeeds if nothing can get lost;
- `Plan.insertsBelow_keeps`: what the walk keeps, and where its inserts come from.
-/

namespace Aggregate

open Value (Lost lasts)

variable {hidden tame : Value.Hidden} {schema : Schema} {base : Nat}

/-! ## Inserts for occurrences -/

/-- The column with the list index or the map key of the value at an address. -/
def Address.keyColumns : Address → Fields
  | child _ relation (.listIndex index) => [(relation.property.keyColumnFor relation.owner, .ofPosition index)]
  | child _ relation (.mapKey key) => [(relation.property.keyColumnFor relation.owner, key)]
  | _ => []

/-- One insert for each of some occurrences, in their order. Those `before` have their actions at the positions from
`base` on. An insert depends on the action for its holder: the nearest one before with only deeper ones between. -/
inductive Inserts (base : Nat) : (before occurrences : List Occurrence) → List Action → Prop
  | nil {before : List Occurrence} : Inserts base before [] []
  | cons {before rest : List Occurrence} {o holder : Occurrence} {type : String} {j : Nat} {actions : List Action} :
    o.value.type? = some type → before[j]? = some holder → o.node.parent? = some holder.node →
      (∀ x ∈ before.drop (j + 1), holder.node.depth < x.node.depth) → Inserts base (before ++ [o]) rest actions →
      Inserts base before (o :: rest) (.insert type o.node (some (base + j)) o.node.keyColumns none :: actions)

namespace Inserts

variable {before xs ys : List Occurrence} {as bs : List Action}

theorem append (hx : Inserts base before xs as) (hy : Inserts base (before ++ xs) ys bs) :
    Inserts base before (xs ++ ys) (as ++ bs) := by
  induction hx with
  | nil => simpa using hy
  | cons htype hj hparent hdeeper _ ih => exact .cons htype hj hparent hdeeper (ih (by simpa using hy))

theorem length_eq (h : Inserts base before xs as) : as.length = xs.length := by
  induction h with
  | nil => rfl
  | cons _ _ _ _ _ ih => simp [ih]

/-- Inserts do not depend on what an erasure leaves out. -/
theorem of_erase (h : Inserts base (before.map (Occurrence.erase hidden)) (xs.map (Occurrence.erase hidden)) as) :
    Inserts base before xs as := by
  induction xs generalizing before as with
  | nil => cases h; exact .nil
  | cons o rest ih =>
    rw [List.map_cons] at h
    cases h with
    | cons htype hj hparent hdeeper hrest =>
      rw [List.getElem?_map] at hj
      obtain ⟨holder, hbefore, rfl⟩ := Option.map_eq_some_iff.1 hj
      refine .cons (by simpa [Occurrence.erase] using htype) hbefore hparent (fun x hx => ?_) (ih (by simpa using hrest))
      exact hdeeper (x.erase hidden) (by rw [← List.map_drop]; exact List.mem_map_of_mem hx)

/-- Inserts for occurrences are inserts for the same with erased values. -/
theorem erase (h : Inserts base before xs as) :
    Inserts base (before.map (Occurrence.erase hidden)) (xs.map (Occurrence.erase hidden)) as := by
  induction h with
  | nil => exact .nil
  | @cons before rest o holder type j actions htype hj hparent hdeeper _ ih =>
    have hholder : (before.map (Occurrence.erase hidden))[j]? = some (holder.erase hidden) := by
      rw [List.getElem?_map, hj, Option.map_some]
    refine .cons (o := o.erase hidden) ((Value.type?_erase o.value).trans htype) hholder hparent (fun x hx => ?_) ?_
    · rw [← List.map_drop] at hx
      obtain ⟨y, hy, rfl⟩ := List.mem_map.1 hx
      exact hdeeper y hy
    · simpa using ih

end Inserts

/-- The actions insert the occurrences, which are all of registered types and at most so deep. -/
structure Planned (schema : Schema) (deepest base : Nat) (before occurrences : List Occurrence)
    (actions : List Action) : Prop where
  accepted : ∀ x ∈ occurrences, x.Accepted schema
  depth_le : ∀ x ∈ occurrences, x.node.depth ≤ deepest
  inserts : Inserts base before occurrences actions

theorem Planned.append {deepest : Nat} {before xs ys : List Occurrence} {as bs : List Action}
    (hx : Planned schema deepest base before xs as) (hy : Planned schema deepest base (before ++ xs) ys bs) :
    Planned schema deepest base before (xs ++ ys) (as ++ bs) :=
  ⟨List.forall_mem_append.2 ⟨hx.accepted, hy.accepted⟩, List.forall_mem_append.2 ⟨hx.depth_le, hy.depth_le⟩,
    hx.inserts.append hy.inserts⟩

/-- The places that actions address. -/
def places (actions : List Action) : List (List Link) := actions.filterMap fun a => a.address?.map (·.links)

theorem Inserts.places_eq {before xs : List Occurrence} {as : List Action} (h : Inserts base before xs as) :
    places as = xs.map (·.node.links) := by
  induction h with
  | nil => rfl
  | cons _ _ _ _ _ ih => simpa [places, Action.address?] using ih

theorem Property.qualifier_of_mem_parts {p : Property} {c : Value} {part : Strategy × Value} (h : part ∈ p.parts c) :
    p.isQualified = true ∨ part.1.qualifier = none := by
  unfold parts at h
  split at h
  · cases h
  · exact .inl (by simp [isQualified, *])
  · exact .inl (by simp [isQualified, *])
  · obtain ⟨element, -, rfl⟩ := List.mem_map.1 h
    exact .inr rfl
  · cases h
  · cases h
  · cases h
  all_goals
    rw [List.mem_singleton.1 h]
    exact .inr rfl

/-- The columns of an insert are the key columns of its occurrence. -/
theorem Occurs.columns_eq {origin : Nat} {root : Value} {o : Occurrence} (h : Occurs schema origin root o) :
    o.node.columns = o.node.keyColumns := by
  cases h with
  | root => rfl
  | child _ hc =>
    obtain ⟨e, -, r, hr, ⟨place, v⟩, hp, rfl⟩ := Occurrence.mem_children.1 hc
    rcases Property.qualifier_of_mem_parts hp with hq | hq
    · cases place <;> simp [Address.columns, Address.keyColumns, hq, Strategy.qualifier]
    · cases place <;> simp_all [Address.columns, Address.keyColumns, Strategy.qualifier]

/-! ## Depths -/

theorem Occurrence.depth_of_mem_children {o c : Occurrence} (h : c ∈ o.children schema) :
    c.node.depth = o.node.depth + 1 ∧ c.node.parent? = some o.node := by
  obtain ⟨e, -, r, -, part, -, rfl⟩ := mem_children.1 h
  exact ⟨rfl, rfl⟩

theorem Occurrence.isRoot_of_mem_children {o c : Occurrence} (h : c ∈ o.children schema) : c.node.isRoot = false := by
  obtain ⟨e, -, r, -, part, -, rfl⟩ := mem_children.1 h
  rfl

theorem Occurrence.depth_le_of_mem_all {o x : Occurrence} (h : x ∈ o.all schema) : o.node.depth ≤ x.node.depth := by
  induction o using induction schema with
  | step o ih =>
    rw [all_eq] at h
    rcases List.mem_cons.1 h with rfl | h
    · exact Nat.le_refl _
    · obtain ⟨c, hc, hx⟩ := List.mem_flatMap.1 h
      have := ih c hc hx
      have := (depth_of_mem_children hc).1
      omega

theorem Occurrence.isRoot_of_mem_below {o x : Occurrence} (h : x ∈ o.below schema) : x.node.isRoot = false := by
  obtain ⟨c, hc, hx⟩ := List.mem_flatMap.1 h
  have hdepth := depth_le_of_mem_all hx
  rw [(depth_of_mem_children hc).1] at hdepth
  cases hnode : x.node with
  | root _ => simp [hnode, Address.depth] at hdepth
  | child _ _ _ => rfl

/-- The inserts for an entity that another one holds, and for what lies below it, and where the inserts after them have
their positions. -/
theorem Planned.child {origin deepest j : Nat} {root : Value} {before : List Occurrence} {o c : Occurrence} {type : String}
    {inner : List Action} (h : Planned schema deepest base (before ++ [c]) (c.below schema) inner)
    (hoc : Occurs schema origin root c) (hc : c ∈ o.children schema) (htype : c.value.type? = some type)
    (hacc : c.Accepted schema) (hdepth : c.node.depth ≤ deepest) (hj : before[j]? = some o)
    (hdeeper : ∀ x ∈ before.drop (j + 1), o.node.depth < x.node.depth) :
    Planned schema deepest base before (c.all schema)
        (.insert type c.node (some (base + j)) c.node.columns none :: inner) ∧
      base + before.length + 1 + inner.length = base + (before ++ c.all schema).length ∧
      (before ++ c.all schema)[j]? = some o ∧
      ∀ x ∈ (before ++ c.all schema).drop (j + 1), o.node.depth < x.node.depth := by
  obtain ⟨hlevel, hparent⟩ := Occurrence.depth_of_mem_children hc
  have hplanned : Planned schema deepest base before (c.all schema)
      (.insert type c.node (some (base + j)) c.node.columns none :: inner) := by
    rw [Occurrence.all_eq, hoc.columns_eq]
    exact ⟨List.forall_mem_cons.2 ⟨hacc, h.accepted⟩, List.forall_mem_cons.2 ⟨hdepth, h.depth_le⟩,
      .cons htype hj hparent hdeeper h.inserts⟩
  have hlen := hplanned.inserts.length_eq
  obtain ⟨hjlt, -⟩ := List.getElem?_eq_some_iff.1 hj
  refine ⟨hplanned, by simp at hlen ⊢; omega, by rw [List.getElem?_append_left hjlt, hj], ?_⟩
  rw [List.drop_append_of_le_length (by omega)]
  refine List.forall_mem_append.2 ⟨hdeeper, fun x hx => ?_⟩
  have := Occurrence.depth_le_of_mem_all hx
  omega

/-! ## Last elements -/

/-- Each of some occurrences is followed by the last elements of the sets on its way, among the occurrences or later. -/
def Trailing (u : Value) (later : List (List Link)) : List Occurrence → Prop
  | [] => True
  | o :: rest => (lasts o.node.links u).Sublist (rest.map (·.node.links) ++ later) ∧ Trailing u later rest

theorem Trailing.append {u : Value} {later : List (List Link)} {xs ys : List Occurrence}
    (hx : Trailing u (ys.map (·.node.links) ++ later) xs) (hy : Trailing u later ys) : Trailing u later (xs ++ ys) := by
  induction xs with
  | nil => exact hy
  | cons x rest ih => exact ⟨by simpa using hx.1, ih hx.2⟩

theorem Trailing.of_append {u : Value} {later : List (List Link)} {o : Occurrence} {xs ys : List Occurrence}
    (h : Trailing u later (xs ++ o :: ys)) : (lasts o.node.links u).Sublist (ys.map (·.node.links) ++ later) := by
  induction xs with
  | nil => exact h.1
  | cons x rest ih => exact ih h.2

/-- The elements of a set from one position on are followed by the last one. -/
theorem trailing_zipIdx {u : Value} {later : List (List Link)} {ls : List Link} {property : String} {size : Nat}
    (f : Nat → Address) (hf : ∀ i, (f i).links = ls ++ [⟨property, .setPosition i⟩])
    (hlasts : ∀ i, lasts (f i).links u =
      (if i + 1 < size then [ls ++ [⟨property, .setPosition (size - 1)⟩]] else []) ++ lasts ls u)
    (hl : (lasts ls u).Sublist later) (elements : List Value) (i : Nat) (hi : i + elements.length = size) :
    Trailing u later ((elements.zipIdx i).map fun element => ⟨f element.2, element.1⟩) := by
  induction elements generalizing i with
  | nil => trivial
  | cons v rest ih =>
    refine ⟨?_, ih (i + 1) (by simp at hi; omega)⟩
    simp only [hlasts]
    refine List.Sublist.append ?_ hl
    split
    · -- a later element has the last position
      refine List.singleton_sublist.2 ?_
      have hlen : size - 1 - (i + 1) < rest.length := by simp at hi; omega
      simp only [List.map_map, List.mem_map]
      refine ⟨(rest[size - 1 - (i + 1)], size - 1), ?_, by simp [hf]⟩
      exact List.mk_mem_zipIdx_iff_le_and_getElem?_sub.2 ⟨by omega, by simp⟩
    · exact List.nil_sublist _

theorem trailing_of_lasts_eq {u : Value} {later : List (List Link)} {ls : List Link} {xs : List Occurrence}
    (hx : ∀ x ∈ xs, lasts x.node.links u = lasts ls u) (hl : (lasts ls u).Sublist later) : Trailing u later xs := by
  induction xs with
  | nil => trivial
  | cons x rest ih =>
    rw [List.forall_mem_cons] at hx
    exact ⟨hx.1 ▸ hl.trans (List.sublist_append_right _ _), ih hx.2⟩

namespace Occurrence

variable {u : Value} {o : Occurrence} {later : List (List Link)}

/-- What an occurrence holds in one property is followed by the last elements of sets. -/
theorem trailing_childrenBy (ho : u.at? o.node.links = some o.value) (hl : (lasts o.node.links u).Sublist later)
    (e : EntityType) (p : Property) : Trailing u later (o.childrenBy e p) := by
  have hlasts (s : Strategy) (relation : Relation) (hr : relation.property.name = p.name) :
      lasts (Address.child o.node relation s).links u =
        (if s.position + 1 < s.width (o.value.field p.name) then
          [o.node.links ++ [⟨p.name, .setPosition ((o.value.field p.name).card - 1)⟩]] else []) ++
          lasts o.node.links u := by
    rw [Address.links, hr, Value.lasts_append ho, Value.lasts_singleton]
    simp only [Link.width, Link.last]
    by_cases hlt : s.position + 1 < s.width (o.value.field p.name) <;> simp [hlt]
  unfold childrenBy Property.parts
  split
  · trivial
  · refine trailing_of_lasts_eq (fun x hx => ?_) hl
    obtain ⟨part, hp, rfl⟩ := List.mem_map.1 hx
    obtain ⟨item, -, rfl⟩ := List.mem_map.1 hp
    exact hlasts _ _ rfl
  · refine trailing_of_lasts_eq (fun x hx => ?_) hl
    obtain ⟨part, hp, rfl⟩ := List.mem_map.1 hx
    obtain ⟨entry, -, rfl⟩ := List.mem_map.1 hp
    exact hlasts _ _ rfl
  · rename_i ordering elements _ hc
    rw [List.map_map]
    refine trailing_zipIdx (fun i => .child o.node ⟨e.name, p, o.node.path.child p.name⟩ (.setPosition i)) (fun i => rfl)
      (fun i => ?_) hl elements 0 (Nat.zero_add _)
    rw [hlasts _ _ rfl, hc]
    rfl
  · trivial
  · trivial
  · trivial
  all_goals
    refine trailing_of_lasts_eq (fun x hx => ?_) hl
    obtain ⟨part, hp, rfl⟩ := List.mem_map.1 hx
    rw [List.mem_singleton.1 hp]
    exact hlasts _ _ rfl

theorem trailing_children (ho : u.at? o.node.links = some o.value) (hl : (lasts o.node.links u).Sublist later) :
    Trailing u later (o.children schema) := by
  unfold children
  split
  · rename_i e _
    induction e.references with
    | nil => trivial
    | cons r rest ih =>
      rw [List.flatMap_cons]
      exact (trailing_childrenBy ho (hl.trans (List.sublist_append_right _ _)) e r.property).append ih
  · trivial

end Occurrence

/-! ## The walk -/

theorem Occurs.at?_links {origin : Nat} {R : Value} {o : Occurrence} (hs : hidden.Spares schema)
    (hR : R.Ordered hidden) (h : Occurs schema origin (R.erase hidden) o) :
    (R.erase hidden).at? o.node.links = some o.value := by
  obtain ⟨v, hv, hvo, hshown⟩ := h.current hs hR
  rw [Value.at?_erase (hshown hidden hs), Address.at?_of_current h.plain hv, ← hvo]
  rfl

namespace Plan

open ExceptT (Runs runs_bind runs_pure not_runs_throw)
open Edit (runs_value runs_wrapError Stable)

variable {limit : Nat} {below : Address → (holder next : Nat) → Edit ChangeError (List Action)} {d d' : Draft}
  {acts : List Action} {nodes : List Address} {node : Address} {holder next : Nat}

/-- The inserts at some addresses: for the first one, for what lies below it, and for the others. -/
theorem runs_insertsAt_cons :
    (insertsAt schema below holder (node :: nodes) next).Runs d acts d' ↔
      ∃ v type inner d₁ further, node.current schema d.root = .ok v ∧ v.type? = some type ∧
        (below node next (next + 1)).Runs d inner d₁ ∧
        (insertsAt schema below holder nodes (next + 1 + inner.length)).Runs d₁ further d' ∧
        acts = .insert type node (some holder) node.columns none :: inner ++ further := by
  rw [insertsAt, runs_bind]
  simp only [runs_wrapError, runs_value]
  constructor
  · rintro ⟨v, d₀, ⟨hv, rfl⟩, h⟩
    cases ht : v.type? with
    | none => simp only [ht] at h; exact (not_runs_throw h).elim
    | some type =>
      simp only [ht] at h
      obtain ⟨inner, d₁, hinner, h⟩ := runs_bind.1 h
      obtain ⟨further, d₂, hfurther, h⟩ := runs_bind.1 h
      obtain ⟨rfl, rfl⟩ := runs_pure.1 h
      exact ⟨v, type, inner, d₁, further, hv, ht, hinner, hfurther, rfl⟩
  · rintro ⟨v, type, inner, d₁, further, hv, ht, hinner, hfurther, rfl⟩
    refine ⟨v, d, ⟨hv, rfl⟩, ?_⟩
    simp only [ht]
    exact runs_bind.2 ⟨inner, d₁, hinner, runs_bind.2 ⟨further, d', hfurther, runs_pure.2 ⟨rfl, rfl⟩⟩⟩

theorem runs_insertsBelow_zero :
    (insertsBelow schema limit 0 node holder next).Runs d acts d' ↔
      (Edit.children schema node).Runs d [] d' ∧ acts = [] := by
  rw [insertsBelow, runs_bind]
  simp only [runs_wrapError]
  constructor
  · rintro ⟨nodes, d₁, hnodes, h⟩
    cases nodes with
    | nil => obtain ⟨rfl, rfl⟩ := runs_pure.1 h; exact ⟨hnodes, rfl⟩
    | cons child _ => exact (not_runs_throw h).elim
  · rintro ⟨h, rfl⟩
    exact ⟨[], d', h, runs_pure.2 ⟨rfl, rfl⟩⟩

theorem runs_insertsBelow_succ {room : Nat} :
    (insertsBelow schema limit (room + 1) node holder next).Runs d acts d' ↔
      ∃ nodes d₁, (Edit.children schema node).Runs d nodes d₁ ∧
        (insertsAt schema (insertsBelow schema limit room) holder nodes next).Runs d₁ acts d' := by
  rw [insertsBelow, runs_bind]
  simp only [runs_wrapError]

/-! ### What the walk keeps -/

section Keeps

variable {P : Value → Prop} {N : Address → Prop}

/-- The action inserts an entity, found at a node below the root in some root with the property. -/
def Draws (schema : Schema) (P : Value → Prop) (N : Address → Prop) (a : Action) : Prop :=
  ∃ type node holder v x, a = .insert type node (some holder) node.columns none ∧ N node ∧ node.isRoot = false ∧ P v ∧
    node.current schema v = .ok x ∧ x.type? = some type

/-- What is planned below a node keeps a property of the root and inserts entities at nodes. -/
def Keeps (schema : Schema) (P : Value → Prop) (N : Address → Prop)
    (below : Address → (holder next : Nat) → Edit ChangeError (List Action)) : Prop :=
  ∀ node holder next d acts d', N node → (below node holder next).Runs d acts d' → P d.root →
    P d'.root ∧ ∀ a ∈ acts, Draws schema P N a

theorem insertsAt_keeps (hbelow : Keeps schema P N below) (hn : ∀ n ∈ nodes, N n ∧ n.isRoot = false)
    (h : (insertsAt schema below holder nodes next).Runs d acts d') (hd : P d.root) :
    P d'.root ∧ ∀ a ∈ acts, Draws schema P N a := by
  induction nodes generalizing d next acts with
  | nil =>
    obtain ⟨rfl, rfl⟩ := runs_pure.1 h
    exact ⟨hd, by simp⟩
  | cons n rest ih =>
    rw [List.forall_mem_cons] at hn
    obtain ⟨v, type, inner, d₁, further, hv, htype, hinner, hfurther, rfl⟩ := runs_insertsAt_cons.1 h
    obtain ⟨hd₁, hdraws⟩ := hbelow _ _ _ _ _ _ hn.1.1 hinner hd
    obtain ⟨hd₂, hdraws'⟩ := ih hn.2 hfurther hd₁
    refine ⟨hd₂, List.forall_mem_append.2 ⟨List.forall_mem_cons.2 ⟨?_, hdraws⟩, hdraws'⟩⟩
    exact ⟨type, n, holder, d.root, v, rfl, hn.1.1, hn.1.2, hd, hv, htype⟩

/-- Planning is a walk. -/
theorem insertsBelow_keeps (hw : Edit.Walk schema P N) (room : Nat) :
    Keeps schema P N (insertsBelow schema limit room) := by
  induction room with
  | zero =>
    intro node holder next d acts d' hn h hd
    obtain ⟨hnone, rfl⟩ := runs_insertsBelow_zero.1 h
    exact ⟨(Edit.children_keeps hw hn hnone hd).1, by simp⟩
  | succ room ih =>
    intro node holder next d acts d' hn h hd
    obtain ⟨nodes, d₁, hnodes, h⟩ := runs_insertsBelow_succ.1 h
    obtain ⟨hd₁, hn₁⟩ := Edit.children_keeps hw hn hnodes hd
    exact insertsAt_keeps ih hn₁ h hd₁

end Keeps

theorem places_insertsAt (h : (insertsAt schema below holder nodes next).Runs d acts d') :
    (nodes.map (·.links)).Sublist (places acts) := by
  induction nodes generalizing d next acts with
  | nil => exact List.nil_sublist _
  | cons n rest ih =>
    obtain ⟨v, type, inner, d₁, further, -, -, -, hfurther, rfl⟩ := runs_insertsAt_cons.1 h
    have hrest := ih hfurther
    simp only [places, List.cons_append, List.filterMap_cons, Action.address?, Option.map_some,
      List.filterMap_append, List.map_cons] at hrest ⊢
    exact (hrest.trans (List.sublist_append_right _ _)).cons_cons _

/-! ### What the walk plans -/

section Occurs

variable {origin : Nat} {u : Value} {o : Occurrence} {before cs : List Occurrence} {later : List (List Link)}
  {j : Nat}

/-- The inserts at some occurrences and below them, given what the walk plans below each. -/
theorem insertsAt_of_occurs (deepest : Nat) (hs : hidden.Nested tame schema)
    (hbelow : ∀ {c : Occurrence} {before : List Occurrence} {d d' : Draft} {acts : List Action}
      {later : List (List Link)} {j : Nat}, Occurs schema origin u c → d.root.Canonical → d.root.erase hidden = u →
      c.node.depth = o.node.depth + 1 → before[j]? = some c → (∀ x ∈ before.drop (j + 1), c.node.depth < x.node.depth) →
      (lasts c.node.links u).Sublist later →
      (below c.node (base + j) (base + before.length)).Runs d acts d' →
      d'.root.erase hidden = u ∧ c.Accepted schema ∧ Planned schema deepest base before (c.below schema) acts ∨
        Lost tame u (c.node.links :: places acts ++ later) (d'.root.erase hidden))
    (hkeeps : ∀ P : Value → Prop, Edit.Walk schema P Address.Plain → Keeps schema P Address.Plain below)
    (hcs : ∀ c ∈ cs, Occurs schema origin u c ∧ c ∈ o.children schema) (ht : Trailing u later cs)
    (hdeepest : o.node.depth + 1 ≤ deepest)
    (hd : d.root.Canonical) (hu : d.root.erase hidden = u) (hj : before[j]? = some o)
    (hdeeper : ∀ x ∈ before.drop (j + 1), o.node.depth < x.node.depth)
    (h : (insertsAt schema below (base + j) (cs.map (·.node)) (base + before.length)).Runs d acts d') :
    d'.root.erase hidden = u ∧ Planned schema deepest base before (cs.flatMap (Occurrence.all schema)) acts ∨
      Lost tame u (places acts ++ later) (d'.root.erase hidden) := by
  induction cs generalizing before d acts with
  | nil =>
    obtain ⟨rfl, rfl⟩ := runs_pure.1 h
    exact .inl ⟨hu, by simp, by simp, .nil⟩
  | cons c rest ih =>
    rw [List.forall_mem_cons] at hcs
    obtain ⟨⟨hoc, hc⟩, hrest⟩ := hcs
    obtain ⟨hdepth, -⟩ := Occurrence.depth_of_mem_children hc
    obtain ⟨v, type, inner, d₁, further, hv, htype, hinner, hfurther, rfl⟩ := runs_insertsAt_cons.1 h
    have htype : c.value.type? = some type := by
      subst hu
      obtain ⟨w, hw, hwc, -⟩ := hoc.current hs.inner hd.hide
      rw [hv] at hw
      cases hw
      rw [← hwc, Value.type?_erase, htype]
    have hc₁ : d₁.root.Canonical := (hkeeps _ Edit.walk_canonical _ _ _ _ _ _ hoc.plain hinner hd).1
    rw [show base + before.length + 1 = base + (before ++ [c]).length by simp; omega] at hinner
    have hinner := hbelow hoc hd hu hdepth (List.getElem?_concat_length ..) (by simp) ht.1 hinner
    rcases hinner with ⟨hu₁, hacc, hplanned⟩ | hlost
    · -- nothing lost below `c`: the others follow it and what lies below it
      obtain ⟨hplannedc, hnext, hj', hdeeper'⟩ :=
        hplanned.child hoc hc htype hacc (hdepth.trans_le hdeepest) hj hdeeper
      rw [hnext] at hfurther
      rcases ih hrest ht.2 hc₁ hu₁ hj' hdeeper' hfurther with ⟨hu₂, hplanned₂⟩ | hlost
      · exact .inl ⟨hu₂, by rw [List.flatMap_cons]; exact hplannedc.append hplanned₂⟩
      · refine .inr (hlost.mono ?_)
        simp only [places, List.filterMap_append, List.append_assoc]
        exact List.sublist_append_right _ _
    · -- what is lost below `c` stays lost
      have hnodes : ∀ n ∈ rest.map (·.node), n.Plain ∧ n.isRoot = false := by
        intro n hn
        obtain ⟨x, hx, rfl⟩ := List.mem_map.1 hn
        exact ⟨(hrest x hx).1.plain, Occurrence.isRoot_of_mem_children (hrest x hx).2⟩
      have hlost := (insertsAt_keeps (hkeeps _ Edit.walk_lost) hnodes hfurther ⟨hc₁, hlost⟩).1
      have hplaces := places_insertsAt hfurther
      rw [List.map_map] at hplaces
      refine .inr (hlost.2.mono ?_)
      simp only [places, List.cons_append, List.filterMap_cons, Action.address?, Option.map_some,
        List.filterMap_append, List.append_assoc] at hplaces ⊢
      exact ((List.Sublist.refl _).append (hplaces.append_right _)).cons_cons _

/-- What the walk plans below an occurrence, unless a set has lost elements: then one of the planned places has become
unreachable for good. -/
theorem insertsBelow_of_occurs (hs : hidden.Nested tame schema) {room deepest : Nat} (ho : Occurs schema origin u o)
    (hd : d.root.Canonical) (hu : d.root.erase hidden = u) (hdeepest : o.node.depth + room = deepest)
    (hj : before[j]? = some o) (hdeeper : ∀ x ∈ before.drop (j + 1), o.node.depth < x.node.depth)
    (hl : (lasts o.node.links u).Sublist later)
    (h : (insertsBelow schema limit room o.node (base + j) (base + before.length)).Runs d acts d') :
    d'.root.erase hidden = u ∧ o.Accepted schema ∧ Planned schema deepest base before (o.below schema) acts ∨
      Lost tame u (o.node.links :: places acts ++ later) (d'.root.erase hidden) := by
  induction room generalizing o before d d' acts later j with
  | zero =>
    obtain ⟨hnone, rfl⟩ := runs_insertsBelow_zero.1 h
    rcases Edit.children_of_occurs hs ho hd hu hnone with ⟨hu₁, hacc, hnil⟩ | hlost
    · have hnil : o.children schema = [] := List.map_eq_nil_iff.1 hnil.symm
      refine .inl ⟨hu₁, hacc, ?_⟩
      rw [Occurrence.below, hnil]
      exact ⟨by simp, by simp, .nil⟩
    · exact .inr (hlost.mono (hl.cons_cons _))
  | succ room ih =>
    obtain ⟨nodes, d₁, hnodes, h⟩ := runs_insertsBelow_succ.1 h
    obtain ⟨hc₁, hplain⟩ := Edit.children_keeps Edit.walk_canonical ho.plain hnodes hd
    rcases Edit.children_of_occurs hs ho hd hu hnodes with ⟨hu₁, hacc, rfl⟩ | hlost
    · have hat : u.at? o.node.links = some o.value := by
        subst hu
        exact ho.at?_links hs.inner hd.hide
      refine (insertsAt_of_occurs deepest hs ?_ (fun P hw => insertsBelow_keeps hw room)
        (fun c hc => ⟨ho.child hc, hc⟩) (Occurrence.trailing_children hat hl) (by omega) hc₁ hu₁ hj hdeeper h).imp ?_ ?_
      · intro c before d d' acts later j hoc hd hu hdepth hj hdeeper hl h
        exact ih hoc hd hu (by omega) hj hdeeper hl h
      · rintro ⟨hu₂, hplanned⟩
        exact ⟨hu₂, hacc, hplanned⟩
      · exact fun hlost => hlost.mono (List.sublist_cons_self _ _)
    · have hlost := (insertsAt_keeps (insertsBelow_keeps Edit.walk_lost room) hplain h ⟨hc₁, hlost⟩).1
      refine .inr (hlost.2.mono ?_)
      exact (hl.trans (List.sublist_append_right _ _)).cons_cons _

end Occurs

/-! ### When the walk succeeds -/

section Ok

variable {origin : Nat} {u : Value} {o : Occurrence} {cs : List Occurrence}

/-- Where the elements of all sets differ in more than the orderings of sets, planning changes these orderings only. -/
theorem stable_unlabel (hn : u.unlabel.SetsNodup) :
    Stable (fun _ _ => false) fun v => v.Canonical ∧ v.unlabel = u := by
  rintro ls v v' ⟨hc, rfl⟩ hr
  have hd : v.unlabel.SetsNodup := by rwa [Value.unlabel_unlabel] at hn
  exact ⟨hr.ordered hc, hr.erase_eq le_rfl hc (Value.shown_of_none ls v) hd⟩

theorem insertsAt_ok
    (hkeeps : Keeps schema (fun v => v.Canonical ∧ v.unlabel = u) Address.Plain below)
    (hbelow : ∀ c ∈ cs, ∀ holder next (d : Draft), d.root.Canonical → d.root.unlabel = u →
      ∃ acts d', (below c.node holder next).Runs d acts d')
    (hcs : ∀ c ∈ cs, Occurs schema origin u c ∧ c.Accepted schema)
    (hd : d.root.Canonical) (hu : d.root.unlabel = u) :
    ∃ acts d', (insertsAt schema below holder (cs.map (·.node)) next).Runs d acts d' := by
  induction cs generalizing d next with
  | nil => exact ⟨_, _, runs_pure.2 ⟨rfl, rfl⟩⟩
  | cons c rest ih =>
    rw [List.forall_mem_cons] at hcs hbelow
    obtain ⟨⟨hoc, e, he, -⟩, hrest⟩ := hcs
    have hcurrent := hu ▸ hoc
    obtain ⟨v, hv, hvc, -⟩ := hcurrent.current (fun _ _ _ _ _ => rfl) hd
    obtain ⟨type, htype⟩ : ∃ type, v.type? = some type := by
      rw [← Value.type?_erase, hvc]
      obtain ⟨type, ht, -⟩ := Option.bind_eq_some_iff.1 he
      exact ⟨type, ht⟩
    obtain ⟨inner, d₁, hinner⟩ := hbelow.1 next (next + 1) d hd hu
    obtain ⟨⟨hc₁, hu₁⟩, -⟩ := hkeeps _ _ _ _ _ _ hoc.plain hinner ⟨hd, hu⟩
    obtain ⟨further, d', hfurther⟩ := ih hbelow.2 hrest hc₁ hu₁
    exact ⟨_, d', runs_insertsAt_cons.2 ⟨v, type, inner, d₁, further, hv, htype, hinner, hfurther, rfl⟩⟩

/-- The walk succeeds below an occurrence if it finds entities of registered types, not too deep, and the containers
that their properties declare. -/
theorem insertsBelow_ok (hn : u.unlabel.SetsNodup) {room : Nat} (ho : Occurs schema origin u o) (hd : d.root.Canonical)
    (hu : d.root.unlabel = u) (hacc : ∀ x ∈ o.all schema, x.Accepted schema)
    (hdepth : ∀ x ∈ o.below schema, x.node.depth ≤ o.node.depth + room) :
    ∃ acts d', (insertsBelow schema limit room o.node holder next).Runs d acts d' := by
  induction room generalizing o d holder next with
  | zero =>
    obtain ⟨nodes, d₁, hnodes, rfl, -⟩ := Edit.children_exact hn ho hd hu (hacc o Occurrence.mem_all_self)
    refine ⟨[], d₁, runs_insertsBelow_zero.2 ⟨?_, rfl⟩⟩
    cases hcs : o.children schema with
    | nil => rw [hcs] at hnodes; exact hnodes
    | cons c rest =>
      have hc : c ∈ o.children schema := by rw [hcs]; exact List.mem_cons_self
      have := hdepth c (Occurrence.mem_below hc Occurrence.mem_all_self)
      have := (Occurrence.depth_of_mem_children hc).1
      omega
  | succ room ih =>
    obtain ⟨nodes, d₁, hnodes, rfl, hc₁, hu₁⟩ := Edit.children_exact hn ho hd hu (hacc o Occurrence.mem_all_self)
    have haccc {c x : Occurrence} (hc : c ∈ o.children schema) (hx : x ∈ c.all schema) : x.Accepted schema :=
      hacc x (Occurrence.mem_all_of_mem_below (Occurrence.mem_below hc hx))
    have hbelow : ∀ c ∈ o.children schema, ∀ holder next (d : Draft), d.root.Canonical →
        d.root.unlabel = u → ∃ acts d', (insertsBelow schema limit room c.node holder next).Runs d acts d' := by
      intro c hc holder next d hd hu
      refine ih (ho.child hc) hd hu (fun x => haccc hc) fun x hx => ?_
      have := hdepth x (Occurrence.mem_below hc (Occurrence.mem_all_of_mem_below hx))
      have := (Occurrence.depth_of_mem_children hc).1
      omega
    obtain ⟨acts, d', h⟩ := insertsAt_ok (insertsBelow_keeps ((stable_unlabel hn).walk fun _ h => h.1) room) hbelow
      (fun c hc => ⟨ho.child hc, haccc hc Occurrence.mem_all_self⟩) hc₁ hu₁
    exact ⟨acts, d', runs_insertsBelow_succ.2 ⟨_, d₁, hnodes, h⟩⟩

end Ok

end Plan

end Aggregate
