import Mathlib
import Aggregate.Address.Draft
import Aggregate.Proofs.Erasure
import Aggregate.Proofs.Runs

/-!
# Links

A link leads from an entity into the value of one of its properties, an address from the root along a list of links.

- `Value.at?`, `Value.put`: reading and assigning along links, without the refusals of a schema; `put` drops set
  elements that the set holds already, as assigning does;
- `Value.modify`: changing the value at the end of links, with nothing dropped;
- `Address.at?_of_current`, `Address.assign_of_current`: addresses that can be read and assigned do what their links do.
-/

namespace Aggregate

/-! ## Sets in order of insertion -/

namespace ValueSet

/-- Inserting into a set in order of insertion appends what is new, in order. -/
theorem foldl_insert_linked (vs kept : List Value) :
    ∃ new, new.Sublist vs ∧ vs.foldl insert ⟨.linked, kept⟩ = ⟨.linked, kept ++ new⟩ ∧
      (kept.Nodup → (kept ++ new).Nodup) ∧ ((kept ++ vs).Nodup → new = vs) := by
  induction vs generalizing kept with
  | nil => exact ⟨[], .slnil, by simp, by simp, fun _ => rfl⟩
  | cons v rest ih =>
    by_cases hv : v ∈ kept
    · obtain ⟨new, hsub, hnew, hnodup, -⟩ := ih kept
      refine ⟨new, hsub.cons v, ?_, hnodup, fun h => ?_⟩
      · rw [List.foldl_cons, insert, if_neg (by simp [admits, hv]), hnew]
      · exact absurd rfl ((List.nodup_append.1 h).2.2 v hv v List.mem_cons_self)
    · obtain ⟨new, hsub, hnew, hnodup, hall⟩ := ih (kept ++ [v])
      refine ⟨v :: new, hsub.cons_cons v, ?_, fun h => ?_, fun h => ?_⟩
      · rw [List.foldl_cons, insert, if_pos (by simp [admits, hv])]
        simpa using hnew
      · have := hnodup (List.nodup_append.2 ⟨h, by simp, fun a ha b hb => by
          rw [List.mem_singleton.1 hb]; rintro rfl; exact hv ha⟩)
        simpa using this
      · rw [hall (by simpa using h)]

/-- The elements of a set in order of insertion come from the values inserted, each once. -/
theorem ofList_linked (vs : List Value) :
    ∃ es, es.Sublist vs ∧ es.Nodup ∧ (vs.Nodup → es = vs) ∧ (ofList .linked vs).toValue = .set .linked es := by
  obtain ⟨es, hsub, hes, hnodup, hall⟩ := foldl_insert_linked vs []
  refine ⟨es, hsub, hnodup List.nodup_nil, hall, ?_⟩
  rw [ofList, empty, hes]
  rfl

end ValueSet

/-! ## Places in a container -/

namespace Strategy

/-- The value at a place of a container. -/
def part? : Strategy → Value → Option Value
  | direct, c => some c
  | mapKey key, .map entries => entries.lookup key
  | listIndex index, .list items => items[index]?
  | setPosition position, .set _ elements => elements[position]?
  | _, _ => none

/-- The container with another value at a place; a set keeps only what it does not hold already. -/
def put : Strategy → Value → Value → Value
  | direct, _, x => x
  | mapKey key, .map entries, x => .map (Keyed.insert key x entries)
  | listIndex index, .list items, x => .list (items.set index x)
  | setPosition position, .set _ elements, x => (ValueSet.ofList .linked (elements.set position x)).toValue
  | _, c, _ => c

/-- The container with the value at a place changed. -/
def modify (f : Value → Value) : Strategy → Value → Value
  | direct, c => f c
  | mapKey key, .map entries => .map (entries.map fun e => if e.1 = key then (e.1, f e.2) else e)
  | listIndex index, .list items => .list (items.modify index f)
  | setPosition position, .set ordering elements => .set ordering (elements.modify position f)
  | _, c => c

/-- Whether a set would hold no element twice with another value at a place. -/
def Fits : Strategy → Value → Value → Prop
  | setPosition position, .set _ elements, x => (elements.set position x).Nodup
  | _, _, _ => True

/-- The ways in which a container holds a value. -/
inductive Holds : Strategy → (c w : Value) → Prop
  | direct {w : Value} : Holds direct w w
  | mapKey {key w : Value} {entries : List (Value × Value)} (h : entries.lookup key = some w) :
    Holds (mapKey key) (.map entries) w
  | listIndex {index : Nat} {w : Value} {items : List Value} (h : items[index]? = some w) :
    Holds (listIndex index) (.list items) w
  | setPosition {position : Nat} {ordering : SetOrdering} {w : Value} {elements : List Value}
    (h : elements[position]? = some w) : Holds (setPosition position) (.set ordering elements) w

theorem holds_of_part? {s : Strategy} {c w : Value} (h : s.part? c = some w) : s.Holds c w := by
  cases s with
  | known _ => cases h
  | direct => cases h; exact .direct
  | mapKey key =>
    cases c with
    | map entries => exact .mapKey h
    | _ => cases h
  | listIndex index =>
    cases c with
    | list items => exact .listIndex h
    | _ => cases h
  | setPosition position =>
    cases c with
    | set ordering elements => exact .setPosition h
    | _ => cases h

/-- The value is not one that is known beforehand. -/
def Plain : Strategy → Prop
  | known _ => False
  | _ => True

theorem part?_of_extract {s : Strategy} (hs : s.Plain) {c v : Value} (h : s.extract (some c) = .ok v) :
    s.part? c = some v := by
  cases s with
  | known _ => exact hs.elim
  | direct => cases h; rfl
  | mapKey key =>
    cases c with
    | map entries => simp only [extract, found] at h; split at h <;> simp_all [part?]
    | _ => cases h
  | listIndex index =>
    cases c with
    | list items => simp only [extract, found] at h; split at h <;> simp_all [part?]
    | _ => cases h
  | setPosition position =>
    cases c with
    | set _ elements => simp only [extract, found] at h; split at h <;> simp_all [part?]
    | _ => cases h

theorem extract_eq_ok {s : Strategy} (hs : s.Plain) {c v : Value} :
    s.extract (some c) = .ok v ↔ s.part? c = some v := by
  refine ⟨part?_of_extract hs, fun h => ?_⟩
  cases holds_of_part? h <;> simp_all [extract, found]

theorem rebuild_of_part? {s : Strategy} {c v : Value} (h : s.part? c = some v) (x : Value) :
    s.rebuild c x = .ok (s.put c x) := by
  cases holds_of_part? h with
  | direct | mapKey _ => rfl
  | listIndex h | setPosition h => exact if_pos (List.getElem?_eq_some_iff.1 h).1

end Strategy

/-! ## Links -/

namespace Value

/-- The value of a field; values that are not entities read as if the field were absent. -/
def field (name : String) : Value → Value
  | entity _ fields => Fields.get fields name
  | _ => null

/-- An entity with a field set. -/
def withField (v : Value) (name : String) (x : Value) : Value :=
  match v with
  | entity type fields => entity type (Fields.set fields name x)
  | v => v

/-- An entity with the value of a field changed. -/
def modifyField (name : String) (f : Value → Value) : Value → Value
  | entity type fields => entity type (fields.map fun g => if g.1 = name then (g.1, f g.2) else g)
  | v => v

end Value

/-- A property, and the place of a value in what the property holds. -/
structure Link where
  property : String
  strategy : Strategy
  deriving DecidableEq

namespace Link

/-- The value that a link leads to. -/
def part? (l : Link) (v : Value) : Option Value :=
  l.strategy.part? (v.field l.property)

/-- An entity with another value where a link leads to. -/
def put (l : Link) (v x : Value) : Value :=
  v.withField l.property (l.strategy.put (v.field l.property) x)

/-- An entity with the value changed where a link leads to. -/
def modify (f : Value → Value) (l : Link) (v : Value) : Value :=
  v.modifyField l.property (l.strategy.modify f)

/-- Whether the set that a link leads into would hold no element twice with another value there. -/
def Fits (l : Link) (v x : Value) : Prop :=
  l.strategy.Fits (v.field l.property) x

end Link

namespace Value

/-- The value at the end of some links. -/
def at? : List Link → Value → Option Value
  | [], v => some v
  | l :: rest, v => (l.part? v).bind (at? rest)

/-- The value with another one at the end of some links, where there is one. -/
def put : List Link → Value → Value → Value
  | [], _, x => x
  | l :: rest, v, x => (l.part? v).elim v fun w => l.put v (put rest w x)

/-- The value with the one at the end of some links changed. -/
def modify (f : Value → Value) : List Link → Value → Value
  | [], v => f v
  | l :: rest, v => l.modify (modify f rest) v

/-- Whether no set on the way along some links would hold an element twice with another value at their end. -/
def Fits : List Link → Value → Value → Prop
  | [], _, _ => True
  | l :: rest, v, x => ∀ w, l.part? v = some w → Fits rest w x ∧ l.Fits v (put rest w x)

theorem at?_append (ls ms : List Link) (v : Value) : at? (ls ++ ms) v = (at? ls v).bind (at? ms) := by
  induction ls generalizing v with
  | nil => rfl
  | cons l ls ih =>
    simp only [List.cons_append, at?]
    cases l.part? v with
    | none => rfl
    | some w => exact ih w

theorem put_append {ls : List Link} {v w : Value} (h : at? ls v = some w) (ms : List Link) (x : Value) :
    put (ls ++ ms) v x = put ls v (put ms w x) := by
  induction ls generalizing v with
  | nil => cases h; rfl
  | cons l ls ih =>
    obtain ⟨u, hu, h⟩ := Option.bind_eq_some_iff.1 h
    simp only [List.cons_append, put, hu, Option.elim_some, ih h]

/-! ### Types and fields -/

section Field

variable {v w x : Value} {name other : String}

theorem type?_withField (v : Value) (name : String) (x : Value) : (v.withField name x).type? = v.type? := by
  cases v <;> rfl

theorem field_withField_self {type : String} (h : v.type? = some type) (name : String) (x : Value) :
    (v.withField name x).field name = x := by
  cases v <;> cases h
  simp [withField, field]

theorem field_withField_of_ne (h : other ≠ name) (v x : Value) : (v.withField name x).field other = v.field other := by
  cases v with
  | entity type fields => exact Fields.get_set_of_ne h fields x
  | _ => rfl

theorem type?_put {ls : List Link} (hw : at? ls v = some w) (hx : x.type? = w.type?) :
    (put ls v x).type? = v.type? := by
  cases ls with
  | nil => cases hw; exact hx
  | cons l rest =>
    obtain ⟨u, hu, -⟩ := Option.bind_eq_some_iff.1 hw
    simp only [put, hu, Option.elim_some]
    exact type?_withField ..

end Field

end Value

/-! ## Addresses as links -/

namespace Schema

/-- Which properties of which values can be read. -/
theorem read_eq_ok {s : Schema} {v c : Value} {name : String} :
    s.read v name = .ok c ↔
      ∃ type fields e, v = .entity type fields ∧ s.entity? type = some e ∧ e.declares name = true ∧
        Fields.get fields name = c := by
  constructor
  · intro h
    cases v with
    | entity type fields =>
      cases he : s.entity? type with
      | none => simp [read, bean, entityOf, entity, he, bind, Except.bind] at h
      | some e =>
        have hn := entity?_name he
        simp only [read, bean, entityOf, entity, he, bind, Except.bind, Bean.ofValue, hn, if_true, Bean.get] at h
        split at h
        · exact ⟨type, fields, e, rfl, he, ‹_›, by simpa using h⟩
        · cases h
    | _ => cases h
  · rintro ⟨type, fields, e, rfl, he, hd, rfl⟩
    have hn := entity?_name he
    simp [read, bean, entityOf, entity, he, bind, Except.bind, Bean.ofValue, hn, Bean.get, hd]

/-- A property that can be read can be set. -/
theorem write_of_read {s : Schema} {v c : Value} {name : String} (h : s.read v name = .ok c) (x : Value) :
    s.write v name x = .ok (v.withField name x) := by
  obtain ⟨type, fields, e, rfl, he, hd, -⟩ := read_eq_ok.1 h
  have hn := entity?_name he
  simp [write, bean, entityOf, entity, he, bind, Except.bind, Bean.ofValue, hn, Bean.set, hd, pure, Except.pure,
    Bean.toValue, Value.withField]

theorem field_of_read {s : Schema} {v c : Value} {name : String} (h : s.read v name = .ok c) : v.field name = c := by
  obtain ⟨type, fields, e, rfl, -, -, rfl⟩ := read_eq_ok.1 h
  rfl

end Schema

namespace Address

/-- The links from the root to the address. -/
def links : Address → List Link
  | root _ => []
  | child parent relation strategy => parent.links ++ [⟨relation.property.name, strategy⟩]

/-- No value on the way is known beforehand. -/
def Plain : Address → Prop
  | root _ => True
  | child parent _ strategy => parent.Plain ∧ strategy.Plain

variable {schema : Schema} {R v : Value}

/-- Reading at an address below another one. -/
theorem current_child_eq {parent : Address} {relation : Relation} {strategy : Strategy} (hs : strategy.Plain) :
    (child parent relation strategy).current schema R = (do
      let holder ← parent.current schema R
      let container ← (child parent relation strategy).readRelation schema holder relation
      (strategy.extract (some container)).mapError (.unresolved (child parent relation strategy))) := by
  cases strategy with
  | known _ => exact hs.elim
  | _ => rfl

/-- What reading at an address below another one goes through. -/
theorem current_child {parent : Address} {relation : Relation} {strategy : Strategy} (hs : strategy.Plain) :
    (child parent relation strategy).current schema R = .ok v ↔
      ∃ holder container, parent.current schema R = .ok holder ∧
        schema.read holder relation.property.name = .ok container ∧ strategy.part? container = some v := by
  simp only [current_child_eq hs, readRelation, Except.bind_eq_ok, Except.mapError_eq_ok, Strategy.extract_eq_ok hs,
    exists_and_left]

/-- What assigning at an address below another one goes through: there it assigns the holder with its container
rebuilt. -/
theorem assign_child {parent : Address} {relation : Relation} {strategy : Strategy} {x R' : Value} :
    (child parent relation strategy).assign schema R x = .ok R' ↔
      ∃ holder container inner, parent.current schema R = .ok holder ∧
        schema.read holder relation.property.name = .ok container ∧ strategy.rebuild container x = .ok inner ∧
        parent.assign schema R (holder.withField relation.property.name inner) = .ok R' := by
  simp only [assign, rebuilt, written, readRelation, Except.bind_eq_ok, Except.mapError_eq_ok, Except.pure_eq_ok]
  constructor
  · rintro ⟨_, ⟨holder, hholder, container, hread, inner, hinner, rfl⟩, set, hset, h⟩
    cases hset.symm.trans (Schema.write_of_read hread inner)
    exact ⟨holder, container, inner, hholder, hread, hinner, h⟩
  · rintro ⟨holder, container, inner, hholder, hread, hinner, h⟩
    exact ⟨_, ⟨holder, hholder, container, hread, inner, hinner, rfl⟩, _, Schema.write_of_read hread inner, h⟩

/-- What is read at an address is what its links lead to. -/
theorem at?_of_current {node : Address} (hn : node.Plain) (h : node.current schema R = .ok v) :
    R.at? node.links = some v := by
  induction node generalizing v with
  | root n => cases h; rfl
  | child parent relation strategy ih =>
    obtain ⟨holder, container, hp, hc, hv⟩ := (current_child hn.2).1 h
    rw [links, Value.at?_append, ih hn.1 hp]
    simp [Value.at?, Link.part?, Schema.field_of_read hc, hv]

/-- Where a value can be read, another one can be assigned. -/
theorem assign_of_current {node : Address} (hn : node.Plain) (h : node.current schema R = .ok v) (x : Value) :
    node.assign schema R x = .ok (R.put node.links x) := by
  induction node generalizing v x with
  | root n => rfl
  | child parent relation strategy ih =>
    obtain ⟨holder, container, hp, hc, hv⟩ := (current_child hn.2).1 h
    rw [links, Value.put_append (at?_of_current hn.1 hp)]
    refine assign_child.2 ⟨holder, container, _, hp, hc, Strategy.rebuild_of_part? hv x, ?_⟩
    rw [ih hn.1 hp]
    simp [Value.put, Link.part?, Link.put, Schema.field_of_read hc, hv]

end Address

end Aggregate
