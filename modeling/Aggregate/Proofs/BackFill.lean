import Mathlib
import Aggregate.ChangeSet.Execution
import Aggregate.Proofs.Planning

/-!
# Identifiers written back

What writing one identifier back does to an aggregate.

- `Schema.isId`: the identifier fields; `Schema.Separate`: no identifier property holds entities;
- `Schema.key?`, `Schema.keyAt`: the type and the identifier of an entity, and the assignments that keep them;
- `Action.backFill_of_runs`, `Action.backFill_ok`: what happens to the root, and when it succeeds;
  `Action.root_of_fails_backFill`: nothing happens to the root otherwise;
- `Action.fill`: the identifier put where the action belongs, with nothing dropped;
- `BackFills.exact`: this is all that happens, if the elements of all sets differ in more than identifiers.
-/

namespace Aggregate

open ExceptT (Runs Fails runs_bind runs_pure not_runs_throw fails_bind fails_throw not_fails_pure)
open Edit (runs_value runs_ofExcept runs_record runs_wrapError runs_assign fails_value fails_ofExcept not_fails_record
  fails_wrapError root_of_fails_assign)

/-! ## Identifier properties -/

namespace Schema

/-- The identifier property of a type, if the type is registered and has one. -/
def idProperty? (s : Schema) (type : String) : Option String := (s.entity? type).bind (·.idProperty)

/-- The identifier fields of entities. -/
def isId (s : Schema) : Value.Hidden := fun type name => s.idProperty? type == some name

/-- No identifier property holds entities with rows of their own. -/
def Separate (s : Schema) : Prop := ∀ e ∈ s.types, ∀ r ∈ e.references, e.idProperty ≠ some r.property.name

instance (s : Schema) : Decidable s.Separate :=
  inferInstanceAs (Decidable (∀ e ∈ s.types, ∀ r ∈ e.references, e.idProperty ≠ some r.property.name))

theorem Separate.spares {s : Schema} (h : s.Separate) : s.isId.Spares s := by
  intro type e he r hr
  simp only [isId, idProperty?, he, Option.bind_some]
  exact beq_false_of_ne (h e (List.mem_of_find?_eq_some he) r hr)

end Schema

variable {schema : Schema}

/-! ## Keys -/

/-- The entity type and the identifier of an entity of a type with an identifier property. -/
def Schema.key? (s : Schema) (v : Value) : Option (String × Value) :=
  v.type?.bind fun type => (s.idProperty? type).map fun name => (type, v.field name)

namespace Schema

section Key

variable {v : Value} {type name : String}

theorem key?_eq_some {id : Value} :
    schema.key? v = some (type, id) ↔
      v.type? = some type ∧ ∃ name, schema.idProperty? type = some name ∧ v.field name = id := by
  unfold key?
  cases v.type? with
  | none => simp
  | some t =>
    simp only [Option.bind_some, Option.map_eq_some_iff, Prod.mk.injEq, Option.some.injEq]
    constructor
    · rintro ⟨name, hname, rfl, rfl⟩
      exact ⟨rfl, name, hname, rfl⟩
    · rintro ⟨rfl, name, hname, rfl⟩
      exact ⟨name, hname, rfl, rfl⟩

/-- The identifier in an entity's key can be read. -/
theorem read_of_key? {id : Value} (h : schema.key? v = some (type, id)) :
    ∃ name, schema.idProperty? type = some name ∧ schema.read v name = .ok id := by
  obtain ⟨ht, name, hname, rfl⟩ := key?_eq_some.1 h
  obtain ⟨e, he, hid⟩ := Option.bind_eq_some_iff.1 hname
  cases v with
  | entity t fields =>
    cases ht
    exact ⟨name, hname, read_eq_ok.2 ⟨_, fields, e, rfl, he, by simp [EntityType.declares, hid], rfl⟩⟩
  | _ => cases ht

/-- Setting a field that holds no identifier does not change the key. -/
theorem key?_withField_of_shows (h : v.Shows schema.isId name) (x : Value) :
    schema.key? (v.withField name x) = schema.key? v := by
  unfold key?
  rw [Value.type?_withField]
  cases ht : v.type? with
  | none => rfl
  | some type =>
    rw [Option.bind_some, Option.bind_some]
    refine Option.map_congr fun other hother => ?_
    rw [Value.field_withField_of_ne]
    rintro rfl
    have := h type ht
    simp [isId, hother] at this

theorem key?_withField_of_idProperty? (ht : v.type? = some type) (h : schema.idProperty? type = some name) (id : Value) :
    schema.key? (v.withField name id) = some (type, id) :=
  key?_eq_some.2 ⟨by rw [Value.type?_withField, ht], name, h, Value.field_withField_self ht name id⟩

/-- Assigning below a property that holds no identifier does not change the key. -/
theorem key?_put_cons {l : Link} (h : v.Shows schema.isId l.property) (rest : List Link) (x : Value) :
    schema.key? (v.put (l :: rest) x) = schema.key? v := by
  simp only [Value.put]
  cases l.part? v with
  | none => rfl
  | some w => exact key?_withField_of_shows h _

end Key

/-- The key of the entity at an address. -/
def keyAt (s : Schema) (R : Value) (node : Address) : Option (String × Value) := (R.at? node.links).bind s.key?

end Schema

/-! ## Writing one identifier back -/

/-- What writing an action's identifier back makes of a root. -/
inductive BackFills (schema : Schema) (a : Action) : (R R' : Value) → Prop
  | none {R : Value} : a.generatedId = none ∨ a.address? = none → BackFills schema a R R
  | write {R v id : Value} {node : Address} {name : String} : a.generatedId = some id → a.address? = some node →
      schema.idProperty? a.type = some name → node.current schema R = .ok v → v.type? = some a.type →
      BackFills schema a R (R.put node.links (v.withField name id))

namespace Action

variable {other : Option Schema} {a : Action} {d d' : Draft} {u : Unit}

theorem type_eq_of_ofValue {e : EntityType} {v : Value} {b : Bean} (h : Bean.ofValue e v = .ok b) :
    v.type? = some e.name ∧ b.type = e ∧ b.toValue = v := by
  cases v with
  | entity type fields =>
    simp only [Bean.ofValue] at h
    split at h <;> cases h
    subst_vars
    exact ⟨rfl, rfl, rfl⟩
  | _ => cases h

theorem ofValue_of_type? {e : EntityType} {v : Value} (h : v.type? = some e.name) :
    ∃ b, Bean.ofValue e v = .ok b := by
  cases v <;> simp_all [Bean.ofValue, Value.type?]

theorem set_of_idProperty {e : EntityType} {v : Value} {b : Bean} {name : String} (h : Bean.ofValue e v = .ok b)
    (hid : e.idProperty = some name) (id : Value) :
    ∃ b', b.set name id = .ok b' ∧ b'.toValue = v.withField name id := by
  cases v with
  | entity type fields =>
    simp only [Bean.ofValue] at h
    split at h <;> cases h
    refine ⟨_, if_pos (by simp [EntityType.declares, hid]), ?_⟩
    subst_vars
    rfl
  | _ => cases h

/-- What writing an identifier back does, if it succeeds. -/
theorem backFill_of_runs (ho : other.getD schema = schema) (hn : ∀ node, a.address? = some node → node.Plain)
    (h : (a.backFill other schema).Runs d u d') : BackFills schema a d.root d'.root := by
  unfold backFill at h
  cases hid : a.generatedId with
  | none =>
    simp only [hid] at h
    obtain ⟨-, rfl⟩ := runs_pure.1 h
    exact .none (.inl hid)
  | some id =>
    cases hnode : a.address? with
    | none =>
      simp only [hid, hnode] at h
      obtain ⟨-, rfl⟩ := runs_pure.1 h
      exact .none (.inr hnode)
    | some node =>
      simp only [hid, hnode, ho] at h
      cases he : schema.entity? a.type with
      | none => simp only [he] at h; exact (not_runs_throw h).elim
      | some e =>
        cases hname : e.idProperty with
        | none => simp only [he, hname] at h; exact (not_runs_throw h).elim
        | some name =>
          simp only [he, hname] at h
          obtain ⟨v, d₁, hvalue, h⟩ := runs_bind.1 h
          obtain ⟨hv, rfl⟩ := runs_value.1 (runs_wrapError.1 hvalue)
          split at h
          · obtain ⟨_, _, hthrow, -⟩ := runs_bind.1 h
            exact (not_runs_throw hthrow).elim
          obtain ⟨b, d₁, hbean, h⟩ := runs_bind.1 h
          obtain ⟨hb, rfl⟩ := runs_ofExcept.1 hbean
          obtain ⟨_, d₂, hrecord, h⟩ := runs_bind.1 h
          obtain rfl := runs_record.1 hrecord
          obtain ⟨b', d₃, hset, h⟩ := runs_bind.1 h
          obtain ⟨hb', rfl⟩ := runs_ofExcept.1 hset
          obtain ⟨b'', hb'', hvalue⟩ := set_of_idProperty hb hname id
          cases hb'.symm.trans hb''
          rw [runs_wrapError, hvalue] at h
          let d₁ : Draft := ⟨d.root, d.writes ++ if other.isNone then [b.write name id] else []⟩
          obtain rfl := (runs_assign (d := d₁) (hn node hnode) hv).1 h
          refine .write hid hnode (by rw [Schema.idProperty?, he, Option.bind_some, hname]) hv ?_
          rw [(type_eq_of_ofValue hb).1, Schema.entity?_name he]

/-- It succeeds if the identifier has an entity of the action's type to go to, and that a property for it. -/
theorem backFill_ok (ho : other.getD schema = schema) (hn : ∀ node, a.address? = some node → node.Plain) {R' : Value}
    (h : BackFills schema a d.root R') : ∃ d', (a.backFill other schema).Runs d () d' := by
  cases h with
  | none hnone =>
    have hpure : a.backFill other schema = pure () := by
      unfold backFill
      rcases hnone with hnone | hnone <;> rw [hnone]
      cases a.generatedId <;> rfl
    exact ⟨d, hpure ▸ runs_pure.2 ⟨rfl, rfl⟩⟩
  | @write v id node name hid hnode hname hv ht =>
    obtain ⟨e, he, hname⟩ := Option.bind_eq_some_iff.1 hname
    have hnull : v.isNull = false := by cases v <;> cases ht; rfl
    obtain ⟨b, hb⟩ := ofValue_of_type? (e := e) (ht.trans (by rw [Schema.entity?_name he]))
    obtain ⟨b', hb', -⟩ := set_of_idProperty hb hname id
    let d₁ : Draft := ⟨d.root, d.writes ++ if other.isNone then [b.write name id] else []⟩
    obtain ⟨d', h⟩ : ∃ d', (Edit.assign schema node b'.toValue).Runs d₁ () d' :=
      ⟨_, (runs_assign (d := d₁) (hn node hnode) hv).2 rfl⟩
    refine ⟨d', ?_⟩
    unfold backFill
    simp only [hid, hnode, ho, he, hname]
    refine runs_bind.2 ⟨v, d, runs_wrapError.2 (runs_value.2 ⟨hv, rfl⟩), ?_⟩
    simp only [hnull, Bool.false_eq_true, if_false]
    exact runs_bind.2 ⟨b, d, runs_ofExcept.2 ⟨hb, rfl⟩, runs_bind.2 ⟨(), d₁, runs_record.2 rfl,
      runs_bind.2 ⟨b', d₁, runs_ofExcept.2 ⟨hb', rfl⟩, runs_wrapError.2 h⟩⟩⟩

/-- An identifier that cannot be written back leaves the root as it was. -/
theorem root_of_fails_backFill (h : (a.backFill other schema).Fails d d') : d'.root = d.root := by
  unfold backFill at h
  cases hid : a.generatedId with
  | none =>
    simp only [hid] at h
    exact (not_fails_pure h).elim
  | some id =>
    cases hnode : a.address? with
    | none =>
      simp only [hid, hnode] at h
      exact (not_fails_pure h).elim
    | some node =>
      simp only [hid, hnode] at h
      cases he : (other.getD schema).entity? a.type with
      | none =>
        simp only [he] at h
        obtain rfl := fails_throw.1 h
        rfl
      | some e =>
        cases hname : e.idProperty with
        | none =>
          simp only [he, hname] at h
          obtain rfl := fails_throw.1 h
          rfl
        | some name =>
          simp only [he, hname] at h
          rcases fails_bind.1 h with h | ⟨v, d₁, hvalue, h⟩
          · obtain ⟨-, rfl⟩ := fails_value.1 (fails_wrapError.1 h)
            rfl
          obtain ⟨-, rfl⟩ := runs_value.1 (runs_wrapError.1 hvalue)
          split at h
          · rcases fails_bind.1 h with h | ⟨_, _, hthrow, -⟩
            · obtain rfl := fails_throw.1 h
              rfl
            · exact (not_runs_throw hthrow).elim
          rcases fails_bind.1 h with h | ⟨b, d₁, hbean, h⟩
          · obtain ⟨-, rfl⟩ := fails_ofExcept.1 h
            rfl
          obtain ⟨-, rfl⟩ := runs_ofExcept.1 hbean
          rcases fails_bind.1 h with h | ⟨_, d₁, hrecord, h⟩
          · exact (not_fails_record h).elim
          obtain rfl := runs_record.1 hrecord
          rcases fails_bind.1 h with h | ⟨b', d₁, hset, h⟩
          · obtain ⟨-, rfl⟩ := fails_ofExcept.1 h
            rfl
          obtain ⟨-, rfl⟩ := runs_ofExcept.1 hset
          have hroot := root_of_fails_assign (fails_wrapError.1 h)
          exact hroot

end Action

/-! ## The effect on the aggregate -/

namespace Value

variable {hidden : Hidden} {type name : String} {v : Value}

/-- An erasure does not see a hidden field set. -/
theorem erase_withField_of_hidden (ht : v.type? = some type) (h : hidden type name = true) (x : Value) :
    (v.withField name x).erase hidden = v.erase hidden := by
  cases v <;> cases ht
  simp only [withField, erase, Fields.set, eraseFields_insert_of_hidden h]

theorem ordered_withField_of_hidden (ht : v.type? = some type) (h : hidden type name = true) (x : Value)
    (hv : v.Ordered hidden) : (v.withField name x).Ordered hidden := by
  refine ordered_withField hv fun hs => ?_
  rw [hs type ht] at h
  cases h

end Value

/-- The value with the identifier of an action put where the action belongs. -/
def Action.fill (schema : Schema) (a : Action) (v : Value) : Value :=
  match a.generatedId, a.address?, schema.idProperty? a.type with
  | some id, some node, some name => v.modify (fun x => x.withField name id) node.links
  | _, _, _ => v

namespace BackFills

variable {a : Action} {R R' : Value} {n : Nat}

theorem isId_of_idProperty? {type name : String} (h : schema.idProperty? type = some name) :
    schema.isId type name = true := by
  simp [Schema.isId, h]

/-- An identifier written back is an assignment that the erasure of identifiers does not see. -/
theorem retouches (hn : ∀ node, a.address? = some node → node.Plain) (h : BackFills schema a R R') :
    R' = R ∨ ∃ node, a.address? = some node ∧ Value.Retouches schema.isId schema.isId node.links R R' := by
  cases h with
  | none _ => exact .inl rfl
  | @write v id node name _ hnode hname hv ht =>
    have hhid := isId_of_idProperty? hname
    refine .inr ⟨node, hnode, v, _, Address.at?_of_current (hn node hnode) hv, ?_,
      Value.erase_withField_of_hidden ht hhid id, Value.ordered_withField_of_hidden ht hhid id, rfl⟩
    cases v <;> cases ht
    rfl

/-- An identifier written to the root is not seen where identifiers are left out. -/
theorem erase_eq_of_root (h : BackFills schema a R R') (ha : a.address? = some (.root n)) :
    R'.erase schema.isId = R.erase schema.isId := by
  cases h with
  | none _ => rfl
  | write _ hnode hname hv ht =>
    cases ha.symm.trans hnode
    cases hv
    exact Value.erase_withField_of_hidden ht (isId_of_idProperty? hname) _

/-- Where the elements of all sets differ in more than identifiers, no set drops anything for an entity with another
identifier. -/
theorem fits_withField (hs : schema.Separate) (hR : R.Ordered schema.isId) (hd : (R.erase schema.isId).SetsNodup)
    {node : Address} {u v : Value} {type name : String} (hu : Occurs schema n (R.erase schema.isId) ⟨node, u⟩)
    (hname : schema.idProperty? type = some name) (hv : node.current schema R = .ok v) (ht : v.type? = some type)
    (id : Value) :
    R.at? node.links = some v ∧ Value.Shown schema.isId node.links R ∧ Value.Fits node.links R (v.withField name id) := by
  have hat := Address.at?_of_current hu.plain hv
  obtain ⟨-, -, -, hshown⟩ := hu.current hs.spares hR
  have hn : v.isEntity = true := Value.isEntity_iff.2 ⟨type, ht⟩
  have hsame := Value.erase_withField_of_hidden ht (isId_of_idProperty? hname) id
  exact ⟨hat, hshown _ hs.spares,
    Value.fits_of_setsNodup hat (Value.isEntity_ne_null hn) hR (hshown _ hs.spares) hd hsame⟩

/-- Where the elements of all sets differ in more than identifiers, nothing but the identifier changes. -/
theorem exact (hs : schema.Separate) (hR : R.Ordered schema.isId) (hd : (R.erase schema.isId).SetsNodup)
    (ho : ∀ node, a.address? = some node → ∃ v, Occurs schema n (R.erase schema.isId) ⟨node, v⟩)
    (h : BackFills schema a R R') :
    R'.Ordered schema.isId ∧ R'.erase schema.isId = R.erase schema.isId ∧ R'.unlabel = (a.fill schema R).unlabel := by
  cases h with
  | none hnone =>
    refine ⟨hR, rfl, ?_⟩
    rcases hnone with hnone | hnone <;> simp [Action.fill, hnone]
  | @write v id node name hid hnode hname hv ht =>
    have hhid := isId_of_idProperty? hname
    obtain ⟨u, hu⟩ := ho node hnode
    obtain ⟨hat, hshown, hfits⟩ := fits_withField hs hR hd hu hname hv ht id
    have hne : v ≠ .null := by
      rintro rfl
      cases ht
    have hsame := Value.erase_withField_of_hidden ht hhid id
    refine ⟨Value.ordered_put hR hat (Value.ordered_withField_of_hidden ht hhid id),
      Value.erase_put_of_erase_eq hat hne hR hshown hfits hsame, ?_⟩
    have hnone := Value.shown_of_none node.links R
    have hfill : a.fill schema R = R.modify (fun x => x.withField name id) node.links := by
      simp [Action.fill, hid, hnode, hname]
    calc (R.put node.links (v.withField name id)).unlabel
        = R.unlabel.modify (fun _ => (v.withField name id).unlabel) node.links :=
          Value.erase_put hat hne hR hshown hnone hfits
      _ = R.unlabel.modify (fun x => x.withField name id.unlabel) node.links := by
          refine Value.modify_congr (Value.Ordered.erase hR) (Value.shown_erase hshown hnone) fun x hx => ?_
          rw [Value.unlabel, Value.at?_erase hnone, hat] at hx
          cases hx
          exact Value.unlabel_withField v name id
      _ = (a.fill schema R).unlabel := by
          rw [hfill, Value.unlabel_modify_withField]

end BackFills

end Aggregate
