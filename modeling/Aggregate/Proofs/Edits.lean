import Mathlib
import Aggregate.Plan.Insertion
import Aggregate.Proofs.Loss
import Aggregate.Proofs.Occurrence
import Aggregate.Proofs.Runs

/-!
# Edits

What an edit answers and how it leaves the draft, for the edits that read an aggregate while planning.

- `Edit.runs_value`, `runs_assign`, `runs_settle`, `runs_childrenBy`: the runs of one edit that succeed; the last one
  gives the addresses in one property, and settles the order of its set on the way, `runs_childrenAlong_cons` and
  `runs_children` those in several properties. `Edit.fails_value` and so on are about runs that fail;
- `Edit.children_of_occurs`: at an occurrence, the addresses are those of the occurrences it holds, or a set has lost
  elements; `Edit.children_ok`: a list of addresses there is, if nothing can be lost;
- `Edit.Walk`, `Edit.children_keeps`: what looking up addresses keeps.
-/

namespace Aggregate

open Value (Retouches Lost lasts)
open ExceptT (Runs Fails runs_bind runs_pure not_runs_throw)

variable {hidden tame : Value.Hidden} {schema : Schema}

theorem Schema.entityOf_eq_ok {v : Value} {e : EntityType} : schema.entityOf v = .ok e ↔ schema.typeOf? v = some e := by
  cases v with
  | entity type fields =>
    change schema.entity type = .ok e ↔ schema.entity? type = some e
    exact entity_eq_ok
  | _ => simp [entityOf, typeOf?, Value.type?]

namespace Edit

/-! ## Runs -/

section Run

variable {α δ ε : Type} {d d' : Draft}

theorem runs_ofExcept {wrap : δ → ε} {answer : Except δ α} {a : α} :
    (ofExcept wrap answer).Runs d a d' ↔ answer = .ok a ∧ d = d' := by
  change answer.mapError wrap = .ok a ∧ d = d' ↔ _
  cases answer <;> simp [Except.mapError]

theorem runs_wrapError {wrap : δ → ε} {e : Edit δ α} {a : α} : (e.wrapError wrap).Runs d a d' ↔ e.Runs d a d' := by
  unfold Runs wrapError
  rcases e d with ⟨x | b, d₁⟩
  · exact ⟨fun h => (nomatch h.1), fun h => (nomatch h.1)⟩
  · simp [Except.mapError]

theorem runs_record {writes : List Write} {u : Unit} :
    (record writes : Edit ε Unit).Runs d u d' ↔ { d with writes := d.writes ++ writes } = d' := by
  change (Except.ok () : Except ε Unit) = .ok u ∧ { d with writes := d.writes ++ writes } = d' ↔ _
  simp

theorem runs_value {node : Address} {v : Value} :
    (value schema node).Runs d v d' ↔ node.current schema d.root = .ok v ∧ d = d' :=
  Iff.rfl

/-- Where a value can be read, another one can be assigned. -/
theorem runs_assign {node : Address} (hn : node.Plain) {v : Value} (h : node.current schema d.root = .ok v)
    {x : Value} {u : Unit} :
    (assign schema node x).Runs d u d' ↔
      ⟨d.root.put node.links x, d.writes ++ node.assignWrites schema d.root x⟩ = d' := by
  unfold Runs assign
  rw [Address.assign_of_current hn h]
  exact ⟨fun h => h.2, fun h => ⟨rfl, h⟩⟩

/-! ## Failures -/

theorem fails_ofExcept {wrap : δ → ε} {answer : Except δ α} :
    (ofExcept wrap answer).Fails d d' ↔ (∃ x, answer = .error x) ∧ d = d' := by
  change (∃ x, answer.mapError wrap = .error x) ∧ d = d' ↔ _
  cases answer <;> simp [Except.mapError]

theorem fails_wrapError {wrap : δ → ε} {e : Edit δ α} : (e.wrapError wrap).Fails d d' ↔ e.Fails d d' := by
  unfold Fails wrapError
  rcases e d with ⟨x | b, d₁⟩ <;> simp [Except.mapError]

theorem not_fails_record {writes : List Write} : ¬ (record writes : Edit ε Unit).Fails d d' :=
  fun ⟨⟨_, h⟩, _⟩ => nomatch h

theorem fails_value {node : Address} :
    (value schema node).Fails d d' ↔ (∃ e, node.current schema d.root = .error e) ∧ d = d' :=
  Iff.rfl

/-- An assignment that fails leaves the root as it was. -/
theorem root_of_fails_assign {node : Address} {x : Value} (h : (assign schema node x).Fails d d') : d'.root = d.root := by
  unfold Fails assign at h
  cases hassign : node.assign schema d.root x with
  | ok root =>
    obtain ⟨⟨_, herror⟩, -⟩ := hassign ▸ h
    cases herror
  | error e =>
    obtain ⟨-, rfl⟩ := hassign ▸ h
    rfl

end Run

/-! ## Settling -/

section Settle

variable {node : Address} {p : Property} {holder c : Value} {d d' : Draft}

/-- A property's value with its order settled looks the same to every erasure. -/
theorem erase_settled {x : Value} (h : p.settled? c = some x) : x.erase hidden = c.erase hidden := by
  unfold Property.settled? at h
  split at h <;> cases h
  rfl

theorem ordered_settled {cover : Value.Hidden} {x : Value} (h : p.settled? c = some x) (hc : c.Ordered cover) :
    x.Ordered cover := by
  unfold Property.settled? at h
  split at h <;> cases h
  exact ⟨trivial, hc.2⟩

theorem settled_null {x : Value} (h : p.settled? c = some x) : c ≠ .null := by
  rintro rfl
  unfold Property.settled? at h
  split at h <;> simp_all

/-- No erasure can tell a holder from the same with the order of one property settled. -/
theorem retouches_settled {R x : Value} (hn : node.Plain) (hv : node.current schema R = .ok holder)
    (hr : schema.read holder p.name = .ok c) (hx : p.settled? c = some x) (hR : R.Canonical) :
    Retouches hidden (fun _ _ => false) node.links R (R.put node.links (holder.withField p.name x)) := by
  have hat := Address.at?_of_current hn hv
  have hord := hR.at trivial (Value.shown_of_none node.links R) hat
  obtain ⟨type, fields, e, rfl, -, -, rfl⟩ := Schema.read_eq_ok.1 hr
  refine ⟨_, _, hat, rfl, ?_, fun h => Value.ordered_withField h fun hs => ordered_settled hx (h.field trivial hs), rfl⟩
  cases hl : fields.lookup p.name with
  | none => exact absurd (by simp [Fields.get, hl]) (settled_null hx)
  | some c =>
    simp only [Fields.get, hl, Option.getD_some] at hx
    simp only [Value.withField, Value.erase, Fields.set]
    rw [Value.eraseFields_insert_of_lookup hord.1 hl (erase_settled hx)]

theorem runs_settle (relation : Relation) (hn : node.Plain) (hv : node.current schema d.root = .ok holder)
    (hr : schema.read holder relation.property.name = .ok c) (x : Value) :
    ∃ d₁, d₁.root = d.root.put node.links (holder.withField relation.property.name x) ∧
      ∀ u d', (settle schema node holder relation x).Runs d u d' ↔ d₁ = d' := by
  let y := holder.withField relation.property.name x
  let writes := d.writes ++ schema.writes holder relation.property.name x
  refine ⟨⟨d.root.put node.links y, writes ++ node.assignWrites schema d.root y⟩, rfl, fun u d' => ?_⟩
  simp only [settle, runs_bind, runs_record, runs_ofExcept, Schema.write_of_read hr, Except.ok.injEq,
    exists_and_left, exists_const, exists_eq_left', and_assoc]
  exact runs_assign (d := ⟨d.root, writes⟩) hn hv

/-- The addresses of what a property holds, for a value that it can hold. Its order is settled on the way. -/
theorem runs_childrenBy (owner : String) (hn : node.Plain) (hv : node.current schema d.root = .ok holder)
    (hr : schema.read holder p.name = .ok c) :
    ∃ d₁, (p.settled? c = none ∧ d₁ = d ∨
        ∃ x, p.settled? c = some x ∧ d₁.root = d.root.put node.links (holder.withField p.name x)) ∧
      ∀ nodes d', (childrenBy schema node owner p).Runs d nodes d' ↔
        p.Accepts c ∧ nodes = (p.parts c).map (fun part => .child node ⟨owner, p, node.path.child p.name⟩ part.1) ∧
          d₁ = d' := by
  have hread : node.readRelation schema holder ⟨owner, p, node.path.child p.name⟩ = .ok c := by
    simp only [Address.readRelation, hr]
    rfl
  have hstart (nodes : List Address) (d' : Draft) :
      (childrenBy schema node owner p).Runs d nodes d' ↔ ∃ places, p.strategies c = some places ∧
        ∃ u d₁, ((p.settled? c).elim (pure ()) (settle schema node holder ⟨owner, p, node.path.child p.name⟩)).Runs
            d u d₁ ∧
          places.map (.child node ⟨owner, p, node.path.child p.name⟩) = nodes ∧ d₁ = d' := by
    simp only [childrenBy, runs_bind, runs_value, runs_ofExcept, hv, hread, Except.ok.injEq, exists_eq_left',
      and_assoc, exists_and_left]
    cases p.strategies c with
    | none => simp [not_runs_throw]
    | some places =>
      simp only [Option.some.injEq, exists_eq_left']
      cases p.settled? c with
      | none => simp only [Option.elim_none, runs_pure, exists_and_left, exists_const, true_and, exists_eq_left']
      | some x => simp only [Option.elim_some, runs_bind, runs_pure]
  simp only [hstart, Property.strategies_eq_some]
  cases hx : p.settled? c with
  | none =>
    refine ⟨d, .inl ⟨rfl, rfl⟩, fun nodes d' => ?_⟩
    simp only [Option.elim_none, runs_pure, and_assoc, exists_and_left, exists_const, true_and, exists_eq_left,
      exists_eq_left', List.map_map, eq_comm (a := nodes)]
    rfl
  | some x =>
    obtain ⟨d₁, hd₁, hruns⟩ := runs_settle ⟨owner, p, node.path.child p.name⟩ hn hv hr x
    refine ⟨d₁, .inr ⟨x, rfl, hd₁⟩, fun nodes d' => ?_⟩
    simp only [Option.elim_some, hruns, and_assoc, exists_and_left, exists_const, exists_eq_left, exists_eq_left',
      List.map_map, eq_comm (a := nodes)]
    rfl

end Settle

theorem runs_childrenBy_read {node : Address} {owner : String} {p : Property} {nodes : List Address} {d d' : Draft}
    (h : (childrenBy schema node owner p).Runs d nodes d') :
    ∃ holder c, node.current schema d.root = .ok holder ∧ schema.read holder p.name = .ok c := by
  obtain ⟨holder, d₁, hvalue, h⟩ := runs_bind.1 h
  obtain ⟨hv, rfl⟩ := runs_value.1 hvalue
  obtain ⟨c, d₂, hread, -⟩ := runs_bind.1 h
  obtain ⟨hc, -⟩ := runs_ofExcept.1 hread
  unfold Address.readRelation at hc
  cases hr : schema.read holder p.name with
  | ok x => exact ⟨holder, x, hv, hr⟩
  | error e => rw [hr] at hc; cases hc

section Children

variable {node : Address} {nodes : List Address} {d d' : Draft}

/-- The addresses along some references are those in the property of the first one, and then those along the others. -/
theorem runs_childrenAlong_cons {owner : String} {r : Reference} {rest : List Reference} :
    (childrenAlong schema node owner (r :: rest)).Runs d nodes d' ↔
      ∃ here d₁ further, (childrenBy schema node owner r.property).Runs d here d₁ ∧
        (childrenAlong schema node owner rest).Runs d₁ further d' ∧ nodes = here ++ further := by
  simp only [childrenAlong, runs_bind, runs_pure]
  constructor
  · rintro ⟨here, d₁, hhere, further, _, hfurther, rfl, rfl⟩
    exact ⟨here, d₁, further, hhere, hfurther, rfl⟩
  · rintro ⟨here, d₁, further, hhere, hfurther, rfl⟩
    exact ⟨here, d₁, hhere, further, d', hfurther, rfl, rfl⟩

/-- The addresses of what an entity holds are those along the references of its type. -/
theorem runs_children :
    (children schema node).Runs d nodes d' ↔ ∃ v e, node.current schema d.root = .ok v ∧ schema.typeOf? v = some e ∧
      (childrenAlong schema node e.name e.references).Runs d nodes d' := by
  simp only [children, runs_bind, runs_value, runs_ofExcept, Schema.entityOf_eq_ok]
  constructor
  · rintro ⟨v, _, ⟨hv, rfl⟩, e, _, ⟨he, rfl⟩, h⟩
    exact ⟨v, e, hv, he, h⟩
  · rintro ⟨v, e, hv, he, h⟩
    exact ⟨v, d, ⟨hv, rfl⟩, e, d, ⟨he, rfl⟩, h⟩

end Children

/-! ## What planning keeps -/

/-- An entity of a type is found at a node in some root with the property. -/
def Found (schema : Schema) (P : Value → Prop) (node : Address) (e : EntityType) : Prop :=
  ∃ v y, P v ∧ node.current schema v = .ok y ∧ schema.typeOf? y = some e

/-- Settling one property at a node keeps a property of the root, and what the node holds there are nodes again. -/
structure Passes (schema : Schema) (P : Value → Prop) (N : Address → Prop) (node : Address) (e : EntityType)
    (p : Property) : Prop where
  settle {v holder c x : Value} : P v → node.current schema v = .ok holder → schema.read holder p.name = .ok c →
    p.settled? c = some x → P (v.put node.links (holder.withField p.name x))
  child {c : Value} {part : Strategy × Value} : part ∈ p.parts c →
    N (.child node ⟨e.name, p, node.path.child p.name⟩ part.1)

/-- Walking from node to node, along the references of the entities found there, keeps a property of the root. -/
structure Walk (schema : Schema) (P : Value → Prop) (N : Address → Prop) : Prop where
  plain {node : Address} : N node → node.Plain
  passes {node : Address} {e : EntityType} {r : Reference} : N node → Found schema P node e → r ∈ e.references →
    Passes schema P N node e r.property

section Walk

variable {P : Value → Prop} {N : Address → Prop} {node : Address} {e : EntityType} {d d' : Draft}
  {nodes : List Address}

theorem childrenBy_keeps (hn : node.Plain) {p : Property} (hp : Passes schema P N node e p)
    (h : (childrenBy schema node e.name p).Runs d nodes d') (hd : P d.root) :
    P d'.root ∧ ∀ n ∈ nodes, N n ∧ n.isRoot = false := by
  obtain ⟨holder, c, hv, hread⟩ := runs_childrenBy_read h
  obtain ⟨d₁, hd₁, hruns⟩ := runs_childrenBy e.name hn hv hread
  obtain ⟨-, rfl, rfl⟩ := (hruns _ _).1 h
  refine ⟨?_, fun n hmem => ?_⟩
  · rcases hd₁ with ⟨-, rfl⟩ | ⟨x, hx, hd₁⟩
    · exact hd
    · rw [hd₁]
      exact hp.settle hd hv hread hx
  · obtain ⟨part, hpart, rfl⟩ := List.mem_map.1 hmem
    exact ⟨hp.child hpart, rfl⟩

theorem childrenAlong_keeps (hn : node.Plain) {rs : List Reference} (hp : ∀ r ∈ rs, Passes schema P N node e r.property)
    (h : (childrenAlong schema node e.name rs).Runs d nodes d') (hd : P d.root) :
    P d'.root ∧ ∀ n ∈ nodes, N n ∧ n.isRoot = false := by
  induction rs generalizing d nodes with
  | nil =>
    obtain ⟨rfl, rfl⟩ := runs_pure.1 h
    exact ⟨hd, by simp⟩
  | cons r rest ih =>
    rw [List.forall_mem_cons] at hp
    obtain ⟨here, d₁, further, hhere, hfurther, rfl⟩ := runs_childrenAlong_cons.1 h
    obtain ⟨hd₁, hn₁⟩ := childrenBy_keeps hn hp.1 hhere hd
    obtain ⟨hd₂, hn₂⟩ := ih hp.2 hfurther hd₁
    exact ⟨hd₂, List.forall_mem_append.2 ⟨hn₁, hn₂⟩⟩

/-- Reading the addresses of what an entity holds is a step of a walk. -/
theorem children_keeps (hw : Walk schema P N) (hn : N node) (h : (children schema node).Runs d nodes d')
    (hd : P d.root) : P d'.root ∧ ∀ n ∈ nodes, N n ∧ n.isRoot = false := by
  obtain ⟨v, e, hv, he, h⟩ := runs_children.1 h
  have hfound : Found schema P node e := ⟨d.root, v, hd, hv, he⟩
  exact childrenAlong_keeps (hw.plain hn) (fun r hr => hw.passes hn hfound hr) h hd

end Walk

/-- Assignments that an erasure does not see keep the property. -/
def Stable (hidden : Value.Hidden) (P : Value → Prop) : Prop :=
  ∀ ls v v', P v → Retouches hidden (fun _ _ => false) ls v v' → P v'

section Stable

variable {P : Value → Prop} (hP : Stable hidden P) (hc : ∀ v, P v → v.Canonical)

include hP hc

theorem Stable.passes {node : Address} (hn : node.Plain) (e : EntityType) (p : Property) :
    Passes schema P Address.Plain node e p where
  settle hv hcurrent hread hx := hP _ _ _ hv (retouches_settled hn hcurrent hread hx (hc _ hv))
  child hpart := ⟨hn, Property.plain_of_mem_parts hpart⟩

/-- All walks keep what such assignments keep. -/
theorem Stable.walk : Walk schema P Address.Plain where
  plain := id
  passes hn _ _ := hP.passes hc hn _ _

end Stable

theorem stable_canonical (hidden : Value.Hidden) : Stable hidden Value.Canonical := fun _ _ _ h hr => hr.ordered h

theorem stable_lost {u : Value} {places : List (List Link)} :
    Stable hidden fun v => v.Canonical ∧ Lost tame u places (v.erase hidden) :=
  fun _ _ _ h hr => ⟨hr.ordered h.1, h.2.retouches hr h.1.hide⟩

theorem walk_canonical : Walk schema Value.Canonical Address.Plain :=
  (stable_canonical fun _ _ => false).walk fun _ => id

theorem walk_lost {u : Value} {places : List (List Link)} :
    Walk schema (fun v => v.Canonical ∧ Lost tame u places (v.erase hidden)) Address.Plain :=
  stable_lost.walk fun _ h => h.1

/-! ## Occurrences -/

section Occurs

variable {origin : Nat} {u : Value} {o : Occurrence} {e : EntityType} {d d' : Draft} {nodes : List Address}

/-- Reading the addresses in one property of an occurrence, while nothing is lost. -/
theorem childrenBy_of_occurs (hs : hidden.Nested tame schema) (ho : Occurs schema origin u o)
    (he : schema.typeOf? o.value = some e) {r : Reference} (hr : r ∈ e.references) (hd : d.root.Canonical)
    (hu : d.root.erase hidden = u) :
    ∃ d₁, d₁.root.Canonical ∧
      (d₁.root.erase hidden = u ∨ Lost tame u (o.node.links :: lasts o.node.links u) (d₁.root.erase hidden)) ∧
      ∀ nodes d', (childrenBy schema o.node e.name r.property).Runs d nodes d' ↔
        r.property.Accepts (o.value.field r.property.name) ∧ nodes = (o.childrenBy e r.property).map (·.node) ∧
          d₁ = d' := by
  subst hu
  obtain ⟨holder, hv, hvo, hshown⟩ := ho.current hs.inner hd.hide
  rw [← hvo, Schema.typeOf?_erase] at he
  have hread := Schema.read_of_mem_references he hr
  obtain ⟨d₁, hd₁, hruns⟩ := runs_childrenBy e.name ho.plain hv hread
  have hfield : o.value.field r.property.name = (holder.field r.property.name).erase hidden := by
    rw [← hvo, Value.field_erase (Schema.shows_of_typeOf? hs.inner he hr)]
  have hnodes : (o.childrenBy e r.property).map (·.node) = (r.property.parts (holder.field r.property.name)).map
      fun part => .child o.node ⟨e.name, r.property, o.node.path.child r.property.name⟩ part.1 := by
    rw [Occurrence.childrenBy, hfield, Property.parts_erase, List.map_map, List.map_map]
    rfl
  refine ⟨d₁, ?_, ?_, fun nodes d' => ?_⟩
  · rcases hd₁ with ⟨-, rfl⟩ | ⟨x, hx, hd₁⟩
    · exact hd
    · rw [hd₁]
      have hr : Retouches hidden _ _ _ _ := retouches_settled ho.plain hv hread hx hd
      exact hr.ordered hd
  · rcases hd₁ with ⟨-, rfl⟩ | ⟨x, hx, hd₁⟩
    · exact .inl rfl
    · rw [hd₁]
      exact (retouches_settled ho.plain hv hread hx hd).erase_eq_or_lost hs.le hd.hide (hshown tame hs.spares)
  · rw [hruns, hfield, Property.accepts_erase, hnodes]

/-- Reading the addresses in several properties of an occurrence. -/
theorem childrenAlong_of_occurs (hs : hidden.Nested tame schema) (ho : Occurs schema origin u o)
    (he : schema.typeOf? o.value = some e) {rs : List Reference} (hrs : ∀ r ∈ rs, r ∈ e.references)
    (hd : d.root.Canonical) (hu : d.root.erase hidden = u)
    (h : (childrenAlong schema o.node e.name rs).Runs d nodes d') :
    d'.root.erase hidden = u ∧ (∀ r ∈ rs, r.property.Accepts (o.value.field r.property.name)) ∧
        nodes = (rs.flatMap fun r => o.childrenBy e r.property).map (·.node) ∨
      Lost tame u (o.node.links :: lasts o.node.links u) (d'.root.erase hidden) := by
  induction rs generalizing d nodes with
  | nil =>
    obtain ⟨rfl, rfl⟩ := runs_pure.1 h
    exact .inl ⟨hu, by simp, rfl⟩
  | cons r rest ih =>
    rw [List.forall_mem_cons] at hrs
    obtain ⟨here, d₁, further, hhere, hfurther, rfl⟩ := runs_childrenAlong_cons.1 h
    obtain ⟨_, hc₁, hu₁, hruns⟩ := childrenBy_of_occurs hs ho he hrs.1 hd hu
    obtain ⟨hacc, rfl, rfl⟩ := (hruns _ _).1 hhere
    rcases hu₁ with hu₁ | hlost
    · refine (ih hrs.2 hc₁ hu₁ hfurther).imp_left ?_
      rintro ⟨hu₂, haccs, rfl⟩
      exact ⟨hu₂, List.forall_mem_cons.2 ⟨hacc, haccs⟩, by simp⟩
    · have hkept := childrenAlong_keeps (P := fun v => v.Canonical ∧ Lost tame u _ (v.erase hidden)) ho.plain
        (fun r _ => stable_lost.passes (fun _ h => h.1) ho.plain e r.property) hfurther ⟨hc₁, hlost⟩
      exact .inr hkept.1.2

/-- The addresses in several properties can be read, if these can hold what they hold and nothing can get lost. -/
theorem childrenAlong_ok (hs : hidden.Nested tame schema) (ho : Occurs schema origin u o)
    (he : schema.typeOf? o.value = some e) {rs : List Reference} (hrs : ∀ r ∈ rs, r ∈ e.references)
    (hd : d.root.Canonical) (hu : d.root.erase hidden = u) (hn : (u.erase tame).SetsNodup)
    (hacc : ∀ r ∈ rs, r.property.Accepts (o.value.field r.property.name)) :
    ∃ nodes d', (childrenAlong schema o.node e.name rs).Runs d nodes d' := by
  induction rs generalizing d with
  | nil => exact ⟨_, _, runs_pure.2 ⟨rfl, rfl⟩⟩
  | cons r rest ih =>
    rw [List.forall_mem_cons] at hrs hacc
    obtain ⟨d₁, hc₁, hu₁, hruns⟩ := childrenBy_of_occurs hs ho he hrs.1 hd hu
    have hu₁ := hu₁.resolve_right fun h => h.1 hn
    obtain ⟨further, d₂, hfurther⟩ := ih hrs.2 hc₁ hu₁ hacc.2
    exact ⟨_, d₂, runs_childrenAlong_cons.2 ⟨_, d₁, further, (hruns _ _).2 ⟨hacc.1, rfl, rfl⟩, hfurther, rfl⟩⟩

end Occurs

end Edit

/-- The type of an occurrence is registered, and all its references can hold what they hold. -/
def Occurrence.Accepted (schema : Schema) (o : Occurrence) : Prop :=
  ∃ e, schema.typeOf? o.value = some e ∧ ∀ r ∈ e.references, r.property.Accepts (o.value.field r.property.name)

theorem Occurrence.accepted_erase (hs : hidden.Spares schema) {o : Occurrence} :
    (o.erase hidden).Accepted schema ↔ o.Accepted schema := by
  unfold Accepted
  simp only [erase, Schema.typeOf?_erase]
  refine exists_congr fun e => and_congr_right fun he => forall₂_congr fun r hr => ?_
  rw [Value.field_erase (Schema.shows_of_typeOf? hs he hr), Property.accepts_erase]

/-- Whether the entities of an aggregate are accepted does not depend on what an erasure leaves out. -/
theorem Occurrence.accepted_of_erase_eq {origin : Nat} {R R' : Value} (hs : hidden.Spares schema)
    (hu : R'.erase hidden = R.erase hidden) (h : ∀ o ∈ schema.occurrences origin R, o.Accepted schema) :
    ∀ o ∈ schema.occurrences origin R', o.Accepted schema := by
  intro o ho
  have hmem : o.erase hidden ∈ (schema.occurrences origin R).map (Occurrence.erase hidden) := by
    rw [← occurrences_erase hs, ← hu, occurrences_erase hs]
    exact List.mem_map_of_mem ho
  obtain ⟨x, hx, hxo⟩ := List.mem_map.1 hmem
  rw [← accepted_erase hs, ← hxo, accepted_erase hs]
  exact h x hx

namespace Edit

variable {origin : Nat} {u : Value} {o : Occurrence} {d d' : Draft} {nodes : List Address}

/-- The addresses of what an occurrence holds. -/
theorem children_of_occurs (hs : hidden.Nested tame schema) (ho : Occurs schema origin u o) (hd : d.root.Canonical)
    (hu : d.root.erase hidden = u) (h : (children schema o.node).Runs d nodes d') :
    d'.root.erase hidden = u ∧ o.Accepted schema ∧ nodes = (o.children schema).map (·.node) ∨
      Lost tame u (o.node.links :: lasts o.node.links u) (d'.root.erase hidden) := by
  obtain ⟨v, e, hv, he, h⟩ := runs_children.1 h
  subst hu
  obtain ⟨w, hw, hwo, -⟩ := ho.current hs.inner hd.hide
  rw [hv] at hw
  cases hw
  have he : schema.typeOf? o.value = some e := by rw [← hwo, Schema.typeOf?_erase, he]
  refine (childrenAlong_of_occurs hs ho he (fun _ => id) hd rfl h).imp_left ?_
  rintro ⟨hu, hacc, rfl⟩
  exact ⟨hu, ⟨e, he, hacc⟩, by rw [Occurrence.children, he]⟩

/-- There is a list of addresses of what an occurrence holds, if nothing can get lost. -/
theorem children_ok (hs : hidden.Nested tame schema) (ho : Occurs schema origin u o) (hd : d.root.Canonical)
    (hu : d.root.erase hidden = u) (hn : (u.erase tame).SetsNodup) (hacc : o.Accepted schema) :
    ∃ nodes d', (children schema o.node).Runs d nodes d' := by
  obtain ⟨e, he, hacc⟩ := hacc
  obtain ⟨nodes, d', h⟩ := childrenAlong_ok hs ho he (fun _ => id) hd hu hn hacc
  subst hu
  obtain ⟨w, hw, hwo, -⟩ := ho.current hs.inner hd.hide
  rw [← hwo, Schema.typeOf?_erase] at he
  exact ⟨nodes, d', runs_children.2 ⟨w, e, hw, he, h⟩⟩

/-- Where the elements of all sets differ in more than the orderings of sets, the addresses of what an occurrence holds
can be read, and nothing is lost. -/
theorem children_exact (hn : u.unlabel.SetsNodup) (ho : Occurs schema origin u o) (hd : d.root.Canonical)
    (hu : d.root.unlabel = u) (hacc : o.Accepted schema) :
    ∃ nodes d', (children schema o.node).Runs d nodes d' ∧ nodes = (o.children schema).map (·.node) ∧
      d'.root.Canonical ∧ d'.root.unlabel = u := by
  have hs : Value.Hidden.Nested (fun _ _ => false) (fun _ _ => false) schema := ⟨le_rfl, fun _ _ _ _ _ => rfl⟩
  obtain ⟨nodes, d', h⟩ := children_ok hs ho hd hu hn hacc
  obtain ⟨hu', -, hnodes⟩ := (children_of_occurs hs ho hd hu h).resolve_right fun h => h.1 hn
  exact ⟨nodes, d', h, hnodes, (children_keeps walk_canonical ho.plain h hd).1, hu'⟩

end Edit

end Aggregate
