import Mathlib
import Aggregate.Proofs.Writing

/-!
# Occurrences

The entities of an aggregate, each with its address, as the declarations of the entity types lay them out.

- `Property.parts`: what a property holds, each with its place; `Property.Accepts`: the values it can hold;
- `Occurrence.all`: an entity and the entities below it, each before the entities it holds;
- `Schema.occurrences`: all entities of an aggregate; `Occurs` is the same as a relation (`mem_occurrences_iff`);
- `Occurs.current`: an occurrence of an erasure is found at its address in every value with this erasure.
-/

namespace Aggregate

variable {hidden : Value.Hidden}

/-! ## The parts of a property's value -/

namespace Property

/-- What the value of a property holds, each with its place. -/
def parts (p : Property) (c : Value) : List (Strategy × Value) :=
  match p.holding, c with
  | _, .null => []
  | .list, .list items => items.zipIdx.map fun item => (.listIndex item.2, item.1)
  | .map, .map entries => entries.map fun entry => (.mapKey entry.1, entry.2)
  | .set, .set _ elements => elements.zipIdx.map fun element => (.setPosition element.2, element.1)
  | .list, _ | .map, _ | .set, _ => []
  | .single, v | .embedded, v | .scalar, v => [(.direct, v)]

/-- A property for a list, a map or a set holds `null` or a container of this kind. -/
def Accepts (p : Property) (c : Value) : Prop :=
  match p.holding with
  | .list => c = .null ∨ c.kind = .list
  | .map => c = .null ∨ c.kind = .map
  | .set => c = .null ∨ ∃ ordering, c.kind = .set ordering
  | .single | .embedded | .scalar => True

/-- The strategies of a property are the places of what it holds, for the values it can hold. -/
theorem strategies_eq_some {p : Property} {c : Value} {places : List Strategy} :
    p.strategies c = some places ↔ p.Accepts c ∧ places = (p.parts c).map (·.1) := by
  have hrange {vs : List Value} (f : Nat → Strategy) :
      (List.range vs.length).map f = vs.zipIdx.map fun e => f e.2 := by
    rw [List.range_eq_range', ← List.zipIdx_map_snd, List.map_map]
    rfl
  unfold strategies parts Accepts
  cases p.holding <;> cases c <;> simp [Value.kind, Function.comp_def, hrange, eq_comm]

theorem parts_erase (p : Property) (c : Value) :
    p.parts (c.erase hidden) = (p.parts c).map fun part => (part.1, part.2.erase hidden) := by
  unfold parts
  cases p.holding <;> cases c <;>
    simp [Value.erase, Value.eraseAll_eq_map, Value.eraseEntries_eq_map, List.zipIdx_map, Function.comp_def]

theorem accepts_erase {p : Property} {c : Value} : p.Accepts (c.erase hidden) ↔ p.Accepts c := by
  unfold Accepts
  cases p.holding <;> cases c <;> simp [Value.erase, Value.kind]

theorem plain_of_mem_parts {p : Property} {c : Value} {part : Strategy × Value} (h : part ∈ p.parts c) :
    part.1.Plain := by
  unfold parts at h
  split at h <;> simp at h <;> grind [Strategy.Plain]

/-- A part is found at its place. -/
theorem part?_of_mem_parts {p : Property} {c : Value} (ho : c.InKeyOrder) {part : Strategy × Value}
    (h : part ∈ p.parts c) : part.1.part? c = some part.2 := by
  unfold parts at h
  split at h
  · cases h
  · obtain ⟨item, hi, rfl⟩ := List.mem_map.1 h
    exact List.mem_zipIdx_iff_getElem?.1 hi
  · obtain ⟨entry, he, rfl⟩ := List.mem_map.1 h
    exact Keyed.lookup_of_mem ho he
  · obtain ⟨element, he, rfl⟩ := List.mem_map.1 h
    exact List.mem_zipIdx_iff_getElem?.1 he
  · cases h
  · cases h
  · cases h
  · rw [List.mem_singleton.1 h]; rfl
  · rw [List.mem_singleton.1 h]; rfl
  · rw [List.mem_singleton.1 h]; rfl

end Property

/-! ## Sizes -/

namespace Property

theorem sizeOf_part_le {p : Property} {c : Value} {part : Strategy × Value} (h : part ∈ p.parts c) :
    sizeOf part.2 ≤ sizeOf c ∧ c ≠ .null := by
  unfold parts at h
  split at h
  · cases h
  · obtain ⟨item, hi, rfl⟩ := List.mem_map.1 h
    have := List.sizeOf_lt_of_mem (List.mem_of_getElem? (List.mem_zipIdx_iff_getElem?.1 hi))
    exact ⟨by simp; omega, by simp⟩
  · obtain ⟨entry, he, rfl⟩ := List.mem_map.1 h
    have := List.sizeOf_lt_of_mem he
    have : sizeOf entry = 1 + sizeOf entry.1 + sizeOf entry.2 := by cases entry; simp
    exact ⟨by simp; omega, by simp⟩
  · obtain ⟨element, he, rfl⟩ := List.mem_map.1 h
    have := List.sizeOf_lt_of_mem (List.mem_of_getElem? (List.mem_zipIdx_iff_getElem?.1 he))
    exact ⟨by simp; omega, by simp⟩
  · cases h
  · cases h
  · cases h
  · rename_i hn
    rw [List.mem_singleton.1 h]
    exact ⟨Nat.le_refl _, hn⟩
  · rename_i hn
    rw [List.mem_singleton.1 h]
    exact ⟨Nat.le_refl _, hn⟩
  · rename_i hn
    rw [List.mem_singleton.1 h]
    exact ⟨Nat.le_refl _, hn⟩

end Property

theorem Value.sizeOf_field_lt {v : Value} {name : String} (h : v.field name ≠ .null) :
    sizeOf (v.field name) < sizeOf v := by
  cases v with
  | entity type fields =>
    simp only [field, Fields.get] at h ⊢
    cases hl : fields.lookup name with
    | none => simp [hl] at h
    | some c =>
      obtain ⟨pre, post, rfl, -⟩ := List.lookup_eq_some_iff.1 hl
      have := List.sizeOf_lt_of_mem (show (name, c) ∈ pre ++ (name, c) :: post by simp)
      simp at this ⊢
      omega
  | _ => exact absurd rfl h

/-! ## Occurrences -/

/-- A value inside an aggregate, with its address. -/
structure Occurrence where
  node : Address
  value : Value
  deriving DecidableEq

/-- The entity type of a value, if it is registered. -/
def Schema.typeOf? (s : Schema) (v : Value) : Option EntityType := v.type?.bind s.entity?

namespace Occurrence

variable (schema : Schema)

/-- What an occurrence holds in one property of its type. -/
def childrenBy (o : Occurrence) (e : EntityType) (p : Property) : List Occurrence :=
  (p.parts (o.value.field p.name)).map fun part =>
    ⟨.child o.node ⟨e.name, p, o.node.path.child p.name⟩ part.1, part.2⟩

/-- What an occurrence holds, in order of declaration. -/
def children (o : Occurrence) : List Occurrence :=
  match schema.typeOf? o.value with
  | some e => e.references.flatMap fun r => o.childrenBy e r.property
  | none => []

theorem sizeOf_value_lt {o c : Occurrence} (h : c ∈ o.children schema) : sizeOf c.value < sizeOf o.value := by
  unfold children at h
  split at h
  · obtain ⟨r, -, hc⟩ := List.mem_flatMap.1 h
    obtain ⟨part, hp, rfl⟩ := List.mem_map.1 hc
    obtain ⟨hle, hn⟩ := Property.sizeOf_part_le hp
    exact Nat.lt_of_le_of_lt hle (Value.sizeOf_field_lt hn)
  · cases h

/-- An occurrence and the occurrences below it, each before those it holds. -/
def all (o : Occurrence) : List Occurrence :=
  o :: (o.children schema).attach.flatMap fun c => all c.1
termination_by sizeOf o.value
decreasing_by exact sizeOf_value_lt schema c.2

/-- The occurrences below an occurrence. -/
def below (o : Occurrence) : List Occurrence := (o.children schema).flatMap (all schema)

theorem all_eq (o : Occurrence) : o.all schema = o :: o.below schema := by
  rw [all, below]
  simp

/-- Induction over occurrences: a property holds of one if it holds of those it holds. -/
@[elab_as_elim]
theorem induction {P : Occurrence → Prop} (o : Occurrence) (step : ∀ o, (∀ c ∈ o.children schema, P c) → P o) :
    P o :=
  step o fun c _ => induction c step
termination_by sizeOf o.value
decreasing_by exact sizeOf_value_lt schema ‹_›

/-- An occurrence with an erased value. -/
def erase (hidden : Value.Hidden) (o : Occurrence) : Occurrence := ⟨o.node, o.value.erase hidden⟩

end Occurrence

/-- No property that holds entities is hidden. -/
def Value.Hidden.Spares (hidden : Hidden) (schema : Schema) : Prop :=
  ∀ type e, schema.entity? type = some e → ∀ r ∈ e.references, hidden type r.property.name = false

/-- Both erasures keep all properties that hold entities, and the second one leaves out what the first one leaves out. -/
structure Value.Hidden.Nested (hidden tame : Hidden) (schema : Schema) : Prop where
  le : hidden ≤ tame
  spares : tame.Spares schema

theorem Value.Hidden.Nested.inner {hidden tame : Hidden} {schema : Schema} (h : hidden.Nested tame schema) :
    hidden.Spares schema := fun type e he r hr => eq_false_of_le h.le (h.spares type e he r hr)

theorem Schema.typeOf?_erase (s : Schema) (v : Value) : s.typeOf? (v.erase hidden) = s.typeOf? v := by
  simp [typeOf?]

theorem Schema.typeOf?_withField (s : Schema) (v : Value) (name : String) (x : Value) :
    s.typeOf? (v.withField name x) = s.typeOf? v := by
  rw [typeOf?, typeOf?, Value.type?_withField]

theorem Schema.shows_of_typeOf? {schema : Schema} (hs : hidden.Spares schema) {v : Value} {e : EntityType}
    (he : schema.typeOf? v = some e) {r : Reference} (hr : r ∈ e.references) : v.Shows hidden r.property.name := by
  intro type ht
  rw [typeOf?, ht] at he
  exact hs type e he r hr

namespace Occurrence

variable {schema : Schema}

theorem children_erase (hs : hidden.Spares schema) (o : Occurrence) :
    (o.erase hidden).children schema = (o.children schema).map (erase hidden) := by
  unfold children
  rw [erase, Schema.typeOf?_erase]
  split
  · rename_i e he
    rw [List.map_flatMap]
    refine List.flatMap_congr fun r hr => ?_
    simp only [childrenBy, Value.field_erase (Schema.shows_of_typeOf? hs he hr), Property.parts_erase, List.map_map]
    rfl
  · rfl

/-- The occurrences of an erased value. -/
theorem all_erase (hs : hidden.Spares schema) (o : Occurrence) :
    (o.erase hidden).all schema = (o.all schema).map (erase hidden) := by
  induction o using induction schema with
  | step o ih =>
    rw [all_eq, all_eq, List.map_cons, below, below, children_erase hs, List.flatMap_map, List.map_flatMap]
    rw [List.flatMap_congr ih]

theorem below_erase (hs : hidden.Spares schema) (o : Occurrence) :
    (o.erase hidden).below schema = (o.below schema).map (erase hidden) := by
  have h := all_erase hs o
  rw [all_eq, all_eq, List.map_cons] at h
  exact (List.cons.inj h).2

end Occurrence

/-- The entities of the aggregate with this root, each before the entities it holds. The root has the number
`origin`. -/
def Schema.occurrences (schema : Schema) (origin : Nat) (root : Value) : List Occurrence :=
  Occurrence.all schema ⟨.root origin, root⟩

/-- The occurrence is the root of an aggregate, or held by one of its occurrences. -/
inductive Occurs (schema : Schema) (origin : Nat) (root : Value) : Occurrence → Prop
  | root : Occurs schema origin root ⟨.root origin, root⟩
  | child {o c : Occurrence} : Occurs schema origin root o → c ∈ o.children schema → Occurs schema origin root c

namespace Occurrence

variable {schema : Schema}

theorem mem_children {o c : Occurrence} :
    c ∈ o.children schema ↔
      ∃ e, schema.typeOf? o.value = some e ∧ ∃ r ∈ e.references,
        ∃ part ∈ r.property.parts (o.value.field r.property.name),
          ⟨.child o.node ⟨e.name, r.property, o.node.path.child r.property.name⟩ part.1, part.2⟩ = c := by
  unfold children
  cases schema.typeOf? o.value with
  | none => simp
  | some e => simp [childrenBy]

theorem mem_all_self {o : Occurrence} : o ∈ o.all schema := by
  rw [all_eq]
  exact List.mem_cons_self

theorem mem_below {o c x : Occurrence} (hc : c ∈ o.children schema) (hx : x ∈ c.all schema) : x ∈ o.below schema :=
  List.mem_flatMap.2 ⟨c, hc, hx⟩

theorem mem_all_of_mem_below {o x : Occurrence} (hx : x ∈ o.below schema) : x ∈ o.all schema := by
  rw [all_eq]
  exact List.mem_cons_of_mem _ hx

theorem mem_all_child {x o c : Occurrence} (ho : o ∈ x.all schema) (hc : c ∈ o.children schema) :
    c ∈ x.all schema := by
  induction x using induction schema with
  | step x ih =>
    rw [all_eq] at ho ⊢
    refine List.mem_cons_of_mem _ (List.mem_flatMap.2 ?_)
    rcases List.mem_cons.1 ho with rfl | ho
    · exact ⟨c, hc, mem_all_self⟩
    · obtain ⟨y, hy, ho⟩ := List.mem_flatMap.1 ho
      exact ⟨y, hy, ih y hy ho⟩

end Occurrence

variable {schema : Schema} {origin : Nat} {root : Value}

/-- What lies below an occurrence occurs. -/
theorem Occurs.of_mem_all {o x : Occurrence} (ho : Occurs schema origin root o) (hx : x ∈ o.all schema) :
    Occurs schema origin root x := by
  induction o using Occurrence.induction schema with
  | step o ih =>
    rw [Occurrence.all_eq] at hx
    rcases List.mem_cons.1 hx with rfl | hx
    · exact ho
    · obtain ⟨c, hc, hx⟩ := List.mem_flatMap.1 hx
      exact ih c hc (ho.child hc) hx

theorem mem_occurrences_iff {o : Occurrence} : o ∈ schema.occurrences origin root ↔ Occurs schema origin root o := by
  constructor
  · exact Occurs.root.of_mem_all
  · intro h
    induction h with
    | root => exact Occurrence.mem_all_self
    | child _ hc ih => exact Occurrence.mem_all_child ih hc

/-- The occurrences of an erased aggregate. -/
theorem occurrences_erase (hs : hidden.Spares schema) :
    schema.occurrences origin (root.erase hidden) = (schema.occurrences origin root).map (Occurrence.erase hidden) :=
  Occurrence.all_erase hs ⟨.root origin, root⟩

theorem Occurs.erase (hs : hidden.Spares schema) {o : Occurrence} (h : Occurs schema origin root o) :
    Occurs schema origin (root.erase hidden) (o.erase hidden) := by
  rw [← mem_occurrences_iff, occurrences_erase hs]
  exact List.mem_map_of_mem (mem_occurrences_iff.2 h)

/-! ## Occurrences as addresses -/

theorem EntityType.declares_of_mem_references {e : EntityType} {r : Reference} (h : r ∈ e.references) :
    e.declares r.property.name = true := by
  obtain ⟨p, hp, hr⟩ := List.mem_filterMap.1 h
  have hpr : r.property = p := by
    unfold Property.reference? at hr
    split at hr <;> cases hr
    rfl
  have : (e.property? r.property.name).isSome = true := List.find?_isSome.2 ⟨p, hp, by simp [hpr]⟩
  simp [declares, this]

theorem Schema.read_of_mem_references {v : Value} {e : EntityType} (he : schema.typeOf? v = some e) {r : Reference}
    (hr : r ∈ e.references) : schema.read v r.property.name = .ok (v.field r.property.name) := by
  cases v with
  | entity type fields => exact read_eq_ok.2 ⟨type, fields, e, rfl, he, e.declares_of_mem_references hr, rfl⟩
  | _ => cases he

namespace Occurs

theorem plain {o : Occurrence} (h : Occurs schema origin root o) : o.node.Plain := by
  induction h with
  | root => trivial
  | child _ hc ih =>
    obtain ⟨e, -, r, -, part, hp, rfl⟩ := Occurrence.mem_children.1 hc
    exact ⟨ih, Property.plain_of_mem_parts hp⟩

theorem origin_eq {o : Occurrence} (h : Occurs schema origin root o) : o.node.origin = origin := by
  induction h with
  | root => rfl
  | child _ hc ih =>
    obtain ⟨e, -, r, -, part, -, rfl⟩ := Occurrence.mem_children.1 hc
    exact ih

/-- An occurrence is found at its address. -/
theorem reads {R : Value} {o : Occurrence} (hs : hidden.Spares schema) (hR : R.Ordered hidden)
    (h : Occurs schema origin R o) :
    o.node.current schema R = .ok o.value ∧
      ∀ tame : Value.Hidden, tame.Spares schema → Value.Shown tame o.node.links R := by
  induction h with
  | root => exact ⟨rfl, fun _ _ => trivial⟩
  | @child o c ho hc ih =>
    obtain ⟨hv, hshown⟩ := ih
    obtain ⟨e, he, r, hr, part, hp, rfl⟩ := Occurrence.mem_children.1 hc
    have hshow := Schema.shows_of_typeOf? hs he hr
    have hat := Address.at?_of_current ho.plain hv
    have hord := hR.at trivial (hshown hidden hs) hat
    have hw := Property.part?_of_mem_parts (hord.field trivial hshow).self hp
    have hplain := Property.plain_of_mem_parts hp
    refine ⟨(Address.current_child hplain).2 ⟨o.value, _, hv, Schema.read_of_mem_references he hr, hw⟩, ?_⟩
    intro tame ht
    rw [Address.links]
    exact Value.shown_append (hshown tame ht) hat ⟨Schema.shows_of_typeOf? ht he hr, fun _ _ => trivial⟩

/-- An occurrence of an erased value is found at its address in the value itself. -/
theorem current {R : Value} {o : Occurrence} (hs : hidden.Spares schema) (hR : R.Ordered hidden)
    (h : Occurs schema origin (R.erase hidden) o) :
    ∃ v, o.node.current schema R = .ok v ∧ v.erase hidden = o.value ∧
      ∀ tame : Value.Hidden, tame.Spares schema → Value.Shown tame o.node.links R := by
  rw [← mem_occurrences_iff, occurrences_erase hs] at h
  obtain ⟨x, hx, rfl⟩ := List.mem_map.1 h
  obtain ⟨hcurrent, hshown⟩ := (mem_occurrences_iff.1 hx).reads hs hR
  exact ⟨x.value, hcurrent, rfl, hshown⟩

end Occurs

end Aggregate
