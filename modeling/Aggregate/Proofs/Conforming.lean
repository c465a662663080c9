import Mathlib
import Aggregate.Proofs.BackFill
import Aggregate.Proofs.Declared

/-!
# Conforming aggregates

Aggregates that hold entities of the declared types, and what is planned for them.

- `Schema.Conforms`: every entity held is of the type that its property declares;
- `Value.Retouches.conforms`: assignments that an erasure does not see keep this;
- `Schema.Typed`: an address along declared references, and the type declared there (`Typed.declares`);
- `Plan.typed_of_insertsBelow`: the inserts planned for a conforming aggregate are at such addresses;
- `Plan.key?_of_insertsBelow`: planning keeps the type and the identifier of the root.
-/

namespace Aggregate

open Value (Retouches)

variable {hidden cover : Value.Hidden} {schema : Schema}

/-! ## What properties hold -/

namespace Property

variable {p : Property} {s : Strategy} {c w y : Value}

/-- What a property holds. -/
def held (p : Property) (c : Value) : List Value := (p.parts c).map (·.2)

theorem held_erase (p : Property) (c : Value) : p.held (c.erase hidden) = (p.held c).map (Value.erase hidden) := by
  simp [held, parts_erase, Function.comp_def]

theorem held_list (h : p.holding = .list) (items : List Value) : p.held (.list items) = items := by
  simp [held, parts, h, Function.comp_def]

theorem held_map (h : p.holding = .map) (entries : List (Value × Value)) :
    p.held (.map entries) = entries.map (·.2) := by
  simp [held, parts, h, Function.comp_def]

theorem held_set (h : p.holding = .set) (ordering : SetOrdering) (elements : List Value) :
    p.held (.set ordering elements) = elements := by
  simp [held, parts, h, Function.comp_def]

theorem eq_of_mem_held (h : p.isCollection = false) {x : Value} (hx : x ∈ p.held c) : x = c := by
  cases hh : p.holding <;> simp_all [isCollection, isQualified, held, parts]
  all_goals grind

/-- What a property holds after a value in it was replaced: the new value where the old one was, or what it held before,
or no entity. -/
theorem mem_held_put (hw : s.part? c = some w) (hn : w.isEntity = true) (hy : y.isEntity = true) {x : Value}
    (h : x ∈ p.held (s.put c y)) : x = y ∧ w ∈ p.held c ∨ x ∈ p.held c ∨ x.type? = none := by
  cases Strategy.holds_of_part? hw with
  | direct =>
    cases c <;> cases hn
    cases y <;> cases hy
    cases hh : p.holding <;> simp_all [Strategy.put, held, parts]
  | @mapKey key _ entries hk =>
    cases hh : p.holding with
    | map =>
      rw [Strategy.put, held_map hh, List.mem_map] at h
      obtain ⟨entry, he, rfl⟩ := h
      rw [held_map hh]
      rcases Keyed.mem_insert he with he | rfl
      · exact .inr (.inl (List.mem_map_of_mem he))
      · obtain ⟨pre, post, rfl, -⟩ := List.lookup_eq_some_iff.1 hk
        exact .inl ⟨rfl, by simp⟩
    | list | set => simp [Strategy.put, held, parts, hh] at h
    | single | embedded | scalar =>
      rw [eq_of_mem_held (by simp [isCollection, isQualified, hh]) h]
      exact .inr (.inr rfl)
  | @listIndex index _ items hi =>
    cases hh : p.holding with
    | list =>
      rw [Strategy.put, held_list hh] at h
      rw [held_list hh]
      rcases List.mem_or_eq_of_mem_set h with h | rfl
      · exact .inr (.inl h)
      · exact .inl ⟨rfl, List.mem_of_getElem? hi⟩
    | map | set => simp [Strategy.put, held, parts, hh] at h
    | single | embedded | scalar =>
      rw [eq_of_mem_held (by simp [isCollection, isQualified, hh]) h]
      exact .inr (.inr rfl)
  | @setPosition position ordering _ elements hi =>
    obtain ⟨es, hsub, -, -, hes⟩ := ValueSet.ofList_linked (elements.set position y)
    rw [Strategy.put, hes] at h
    cases hh : p.holding with
    | set =>
      rw [held_set hh] at h ⊢
      rcases List.mem_or_eq_of_mem_set (hsub.subset h) with h | rfl
      · exact .inr (.inl h)
      · exact .inl ⟨rfl, List.mem_of_getElem? hi⟩
    | list | map => simp [held, parts, hh] at h
    | single | embedded | scalar =>
      rw [eq_of_mem_held (by simp [isCollection, isQualified, hh]) h]
      exact .inr (.inr rfl)

end Property

/-! ## Conforming values -/

/-- Every entity that the value holds through references, directly or further down, is of the declared type. -/
inductive Schema.Conforms (schema : Schema) : Value → Prop
  | intro {v : Value} : (∀ e, schema.typeOf? v = some e → ∀ r ∈ e.references,
      ∀ x ∈ r.property.held (v.field r.property.name), ∀ type, x.type? = some type → type = r.target) →
    (∀ e, schema.typeOf? v = some e → ∀ r ∈ e.references,
      ∀ x ∈ r.property.held (v.field r.property.name), Conforms schema x) → Conforms schema v

namespace Schema.Conforms

variable {v w x : Value} {e : EntityType} {r : Reference}

theorem type_eq (h : schema.Conforms v) (he : schema.typeOf? v = some e) (hr : r ∈ e.references)
    (hx : x ∈ r.property.held (v.field r.property.name)) {type : String} (ht : x.type? = some type) :
    type = r.target := by
  cases h with
  | intro htype _ => exact htype e he r hr x hx type ht

theorem held (h : schema.Conforms v) (he : schema.typeOf? v = some e) (hr : r ∈ e.references)
    (hx : x ∈ r.property.held (v.field r.property.name)) : schema.Conforms x := by
  cases h with
  | intro _ hheld => exact hheld e he r hr x hx

theorem of_type?_eq_none (h : v.type? = none) : schema.Conforms v :=
  .intro (fun e he => by simp [Schema.typeOf?, h] at he) fun e he => by simp [Schema.typeOf?, h] at he

theorem field_erase_of_mem (hs : hidden.Spares schema) (he : schema.typeOf? v = some e) (hr : r ∈ e.references) :
    r.property.held ((v.erase hidden).field r.property.name) =
      (r.property.held (v.field r.property.name)).map (Value.erase hidden) := by
  rw [Value.field_erase (Schema.shows_of_typeOf? hs he hr), Property.held_erase]

/-- Whether an aggregate conforms does not depend on what an erasure leaves out. -/
theorem erase (hs : hidden.Spares schema) (h : schema.Conforms v) : schema.Conforms (v.erase hidden) := by
  induction h with
  | @intro v htype _ ih =>
    refine .intro (fun e he r hr x hx type ht => ?_) fun e he r hr x hx => ?_
    all_goals
      rw [Schema.typeOf?_erase] at he
      rw [field_erase_of_mem hs he hr] at hx
      obtain ⟨y, hy, rfl⟩ := List.mem_map.1 hx
    · exact htype e he r hr y hy type (by rwa [Value.type?_erase] at ht)
    · exact ih e he r hr y hy

theorem of_erase (hs : hidden.Spares schema) (h : schema.Conforms (v.erase hidden)) : schema.Conforms v := by
  generalize hu : v.erase hidden = u at h
  induction h generalizing v with
  | @intro u htype _ ih =>
    subst hu
    refine .intro (fun e he r hr x hx type ht => ?_) fun e he r hr x hx => ?_
    all_goals
      have hx' := List.mem_map_of_mem (f := Value.erase hidden) hx
      rw [← field_erase_of_mem hs he hr] at hx'
      rw [← @Schema.typeOf?_erase hidden] at he
    · exact htype e he r hr _ hx' type (by rwa [Value.type?_erase])
    · exact ih e he r hr _ hx' rfl

end Schema.Conforms

/-! ## Assignments -/

/-- What a property holds after an entity was put where a link leads: the entity, if the one before was held, or what it
held before, or no entity. -/
theorem Property.mem_held_link_put {p : Property} {l : Link} {v w y x : Value} (hw : l.part? v = some w)
    (hn : w.isEntity = true) (hy : y.isEntity = true) (hx : x ∈ p.held ((l.put v y).field p.name)) :
    x = y ∧ w ∈ p.held (v.field p.name) ∨ x ∈ p.held (v.field p.name) ∨ x.type? = none := by
  by_cases hname : p.name = l.property
  · have hat : v.at? [l] = some w := by rw [Value.at?, hw]; rfl
    obtain ⟨type, ht⟩ := Value.isEntity_iff.1 (Value.isEntity_of_at? hat hn)
    rw [Link.put, hname, Value.field_withField_self ht] at hx
    rw [Link.part?, ← hname] at hw
    rw [← hname] at hx
    exact mem_held_put hw hn hy hx
  · rw [Link.put, Value.field_withField_of_ne hname] at hx
    exact .inr (.inl hx)

/-- An aggregate still conforms after an assignment that an erasure does not see. -/
theorem Schema.Conforms.put (hs : hidden.Spares schema) {ls : List Link} {v w x : Value} (h : schema.Conforms v)
    (hw : v.at? ls = some w) (hn : w.isEntity = true) (hx : x.erase hidden = w.erase hidden) :
    schema.Conforms (v.put ls x) := by
  have hxt : x.type? = w.type? := by rw [← @Value.type?_erase hidden, hx, Value.type?_erase]
  induction ls generalizing v with
  | nil =>
    cases hw
    exact .of_erase hs (hx ▸ h.erase hs)
  | cons l rest ih =>
    obtain ⟨u, hu, hw⟩ := Option.bind_eq_some_iff.1 hw
    have hun := Value.isEntity_of_at? hw hn
    have hyt : (u.put rest x).type? = u.type? := Value.type?_put hw hxt
    have hyn : (u.put rest x).isEntity = true :=
      Value.isEntity_put hw hn (by rw [← @Value.isEntity_erase hidden, hx, Value.isEntity_erase, hn])
    simp only [Value.put, hu, Option.elim_some]
    have hheld {e : EntityType} (he : schema.typeOf? (l.put v (u.put rest x)) = some e) {r : Reference}
        (hr : r ∈ e.references) {y : Value}
        (hy : y ∈ r.property.held ((l.put v (u.put rest x)).field r.property.name)) :
        (∀ type, y.type? = some type → type = r.target) ∧ schema.Conforms y := by
      rw [Link.put, Schema.typeOf?_withField] at he
      rcases Property.mem_held_link_put hu hun hyn hy with ⟨rfl, hu⟩ | hy | hy
      · exact ⟨fun type ht => h.type_eq he hr hu (hyt ▸ ht), ih (h.held he hr hu) hw⟩
      · exact ⟨fun type ht => h.type_eq he hr hy ht, h.held he hr hy⟩
      · exact ⟨fun type ht => by simp [hy] at ht, .of_type?_eq_none hy⟩
    exact .intro (fun e he r hr y hy => (hheld he hr hy).1) fun e he r hr y hy => (hheld he hr hy).2

/-- An aggregate still conforms after an assignment that an erasure does not see. -/
theorem Value.Retouches.conforms (hs : hidden.Spares schema) {ls : List Link} {v v' : Value}
    (h : Retouches hidden cover ls v v') (hv : schema.Conforms v) : schema.Conforms v' ∧ v'.type? = v.type? := by
  obtain ⟨w, x, hw, hn, hx, -, rfl⟩ := h
  refine ⟨hv.put hs hw hn hx, Value.type?_put hw ?_⟩
  rw [← @Value.type?_erase hidden, hx, Value.type?_erase]

/-- Entities that the value holds itself through references are of the declared types. -/
def Schema.HoldsDeclared (schema : Schema) (v : Value) : Prop :=
  ∀ e ∈ schema.typeOf? v, ∀ r ∈ e.references, ∀ x ∈ r.property.held (v.field r.property.name), ∀ type ∈ x.type?,
    type = r.target

instance (schema : Schema) : DecidablePred schema.HoldsDeclared := fun v =>
  inferInstanceAs (Decidable (∀ e ∈ schema.typeOf? v, ∀ r ∈ e.references,
    ∀ x ∈ r.property.held (v.field r.property.name), ∀ type ∈ x.type?, type = r.target))

/-- An aggregate conforms if each value inside holds entities of the declared types only. -/
theorem Schema.conforms_of_everywhere {v : Value} (ho : v.Canonical)
    (h : v.Everywhere (fun _ _ => false) schema.HoldsDeclared) : schema.Conforms v := by
  have hnull : schema.HoldsDeclared .null := by simp [HoldsDeclared, typeOf?, Value.type?]
  generalize hn : sizeOf v = size
  induction size using Nat.strong_induction_on generalizing v with
  | _ size ih =>
    refine .intro h.self fun e he r hr x hx => ?_
    obtain ⟨part, hpart, rfl⟩ := List.mem_map.1 hx
    obtain ⟨hle, hne⟩ := Property.sizeOf_part_le hpart
    have hlt := Value.sizeOf_field_lt hne
    have hfield : (v.field r.property.name).Canonical := Value.Everywhere.field trivial ho fun _ _ => rfl
    have hplaced := Property.part?_of_mem_parts hfield.self hpart
    exact ih (sizeOf part.2) (by omega) (hfield.placed hplaced) ((h.field hnull fun _ _ => rfl).placed hplaced) rfl

/-! ## Declared addresses -/

theorem Property.mem_held_of_part? {p : Property} {c c' v : Value} {part : Strategy × Value} {type : String}
    (h : part ∈ p.parts c) (hv : part.1.part? c' = some v) (ht : v.type? = some type) : v ∈ p.held c' := by
  unfold parts at h
  split at h
  · cases h
  · rename_i hh
    obtain ⟨item, -, rfl⟩ := List.mem_map.1 h
    cases Strategy.holds_of_part? hv with
    | listIndex hi =>
      rw [held_list hh]
      exact List.mem_of_getElem? hi
  · rename_i hh
    obtain ⟨entry, -, rfl⟩ := List.mem_map.1 h
    cases Strategy.holds_of_part? hv with
    | mapKey hk =>
      rw [held_map hh]
      obtain ⟨pre, post, rfl, -⟩ := List.lookup_eq_some_iff.1 hk
      simp
  · rename_i hh
    obtain ⟨element, -, rfl⟩ := List.mem_map.1 h
    cases Strategy.holds_of_part? hv with
    | setPosition hi =>
      rw [held_set hh]
      exact List.mem_of_getElem? hi
  · cases h
  · cases h
  · cases h
  all_goals
    rename_i hh _
    rw [List.mem_singleton.1 h] at hv
    cases hv
    cases c' <;> cases ht
    simp [held, parts, hh]

/-- An address along declared references, from a root of one type to entities of another. -/
inductive Schema.Typed (schema : Schema) (n : Nat) (type : String) : Address → String → Prop
  | root : Typed schema n type (.root n) type
  | child {node : Address} {target : String} {e : EntityType} {r : Reference} {c : Value} {part : Strategy × Value} :
    Typed schema n type node target → schema.entity? target = some e → r ∈ e.references → part ∈ r.property.parts c →
    Typed schema n type (.child node ⟨e.name, r.property, node.path.child r.property.name⟩ part.1) r.target

namespace Schema.Typed

variable {n : Nat} {type target : String} {node : Address}

theorem plain (h : schema.Typed n type node target) : node.Plain := by
  induction h with
  | root => trivial
  | child _ _ _ hp ih => exact ⟨ih, Property.plain_of_mem_parts hp⟩

theorem origin_eq (h : schema.Typed n type node target) : node.origin = n := by
  induction h with
  | root => rfl
  | child _ _ _ _ ih => exact ih

/-- Below the root, the path of the address is declared for the type. -/
theorem declares (h : schema.Typed n type node target) (hn : node.isRoot = false) :
    schema.Declares type .root node.path target := by
  induction h with
  | root => cases hn
  | @child node _ _ _ _ _ hnode he hr _ ih =>
    cases node with
    | root _ => cases hnode; exact .here he hr
    | child _ _ _ => exact (ih rfl).child he hr

/-- In a conforming aggregate, the entities at the address are of the declared type. -/
theorem conforms {R v : Value} (h : schema.Typed n type node target) (hR : schema.Conforms R)
    (ht : R.type? = some type) (hv : node.current schema R = .ok v) :
    schema.Conforms v ∧ ∀ t, v.type? = some t → t = target := by
  induction h generalizing v with
  | root =>
    cases hv
    exact ⟨hR, fun t h => by rw [ht] at h; cases h; rfl⟩
  | child hnode he hr hp ih =>
    obtain ⟨holder, c, hholder, hread, hpart⟩ := (Address.current_child (Property.plain_of_mem_parts hp)).1 hv
    obtain ⟨t', fields, e', rfl, he', -, rfl⟩ := Schema.read_eq_ok.1 hread
    obtain ⟨hconf, htype⟩ := ih hholder
    cases htype t' rfl
    cases he.symm.trans he'
    cases hvt : v.type? with
    | none => exact ⟨.of_type?_eq_none hvt, nofun⟩
    | some t =>
      have hheld := Property.mem_held_of_part? hp hpart hvt
      refine ⟨hconf.held he hr hheld, fun s hs => ?_⟩
      cases hs
      exact hconf.type_eq he hr hheld hvt

/-- In a conforming aggregate, such an address leads through no identifier. -/
theorem shown {R v : Value} (hs : schema.Separate) (h : schema.Typed n type node target) (hR : schema.Conforms R)
    (ht : R.type? = some type) (hv : node.current schema R = .ok v) : Value.Shown schema.isId node.links R := by
  induction h generalizing v with
  | root => trivial
  | child hnode he hr hp ih =>
    obtain ⟨holder, c, hholder, hread, -⟩ := (Address.current_child (Property.plain_of_mem_parts hp)).1 hv
    refine Value.shown_append (ih hholder) (Address.at?_of_current hnode.plain hholder) ⟨fun t ht' => ?_, fun _ _ => trivial⟩
    cases (hnode.conforms hR ht hholder).2 t ht'
    exact hs.spares _ _ he _ hr

end Schema.Typed

/-! ## Planning -/

namespace Edit

variable {n : Nat} {type : String}

/-- Walking through a conforming aggregate keeps to declared addresses. -/
theorem walk_typed : Walk schema (fun v => v.Canonical ∧ schema.Conforms v ∧ v.type? = some type)
    (fun node => ∃ target, schema.Typed n type node target) where
  plain := fun ⟨_, h⟩ => h.plain
  passes := fun {node e r} ⟨target, hn⟩ ⟨v, y, ⟨_, hc, ht⟩, hy, he⟩ hr => by
    obtain ⟨t, hyt, he⟩ := Option.bind_eq_some_iff.1 he
    cases (hn.conforms hc ht hy).2 t hyt
    refine ⟨fun {v holder c x} ⟨hv, hc, ht⟩ hholder hread hx => ?_, fun hp => ⟨_, hn.child he hr hp⟩⟩
    have hretouch : Retouches (fun _ _ => false) _ _ _ _ := retouches_settled hn.plain hholder hread hx hv
    obtain ⟨hc', ht'⟩ := hretouch.conforms (fun _ _ _ _ _ => rfl) hc
    exact ⟨hretouch.ordered hv, hc', ht'.trans ht⟩

/-- Walking keeps the key of the root. -/
theorem walk_key (hs : schema.Separate) {key? : Option (String × Value)} :
    Walk schema (fun v => v.type? = some type ∧ schema.key? v = key?)
      (fun node => node.Plain ∧ node.origin = n ∧ (node.isRoot = false → node.path.isRoot = false) ∧
        ∀ l ∈ node.links.head?, schema.isId type l.property = false) where
  plain := And.left
  passes := fun {node e r} ⟨hn, horigin, _, hl⟩ ⟨v₀, y, ⟨ht₀, _⟩, hy, he⟩ hr => by
    have hroot : node.links = [] → schema.isId type r.property.name = false := by
      intro hnil
      have hat := Address.at?_of_current hn hy
      rw [hnil] at hat
      cases hat
      exact Schema.shows_of_typeOf? hs.spares he hr type ht₀
    refine ⟨fun {v holder c y} ⟨ht, hkey⟩ hholder hread hy => ?_,
      fun hp => ⟨⟨hn, Property.plain_of_mem_parts hp⟩, horigin, fun _ => Path.isRoot_child .., ?_⟩⟩
    · have hat := Address.at?_of_current hn hholder
      refine ⟨(Value.type?_put hat (Value.type?_withField ..)).trans ht, ?_⟩
      have hshows {name : String} (h : schema.isId type name = false) : v.Shows schema.isId name := by
        intro type' ht'
        cases ht.symm.trans ht'
        exact h
      cases hlinks : node.links with
      | nil =>
        rw [hlinks] at hat
        cases hat
        exact (Schema.key?_withField_of_shows (hshows (hroot hlinks)) _).trans hkey
      | cons l rest =>
        rw [Schema.key?_put_cons (hshows (hl l (by simp [hlinks]))), hkey]
    · intro l hmem
      cases hlinks : node.links with
      | nil =>
        simp only [Address.links, hlinks, List.nil_append, List.head?_cons, Option.mem_some_iff] at hmem
        exact hmem ▸ hroot hlinks
      | cons m rest =>
        refine hl l ?_
        simpa [Address.links, hlinks] using hmem

end Edit

/-- The action inserts an entity below a root of a type, and not through the identifier of the root. -/
def Action.Avoids (schema : Schema) (n : Nat) (type : String) (a : Action) : Prop :=
  ∃ type' node holder l rest, a = .insert type' node (some holder) node.columns none ∧ node.Plain ∧ node.origin = n ∧
    node.path.isRoot = false ∧ node.links = l :: rest ∧ schema.isId type l.property = false

theorem Action.Avoids.isRoot_eq {n : Nat} {type : String} {a : Action} (h : a.Avoids schema n type) : a.isRoot = false := by
  obtain ⟨t, node, holder, l, rest, rfl, -⟩ := h
  rfl

theorem Action.Avoids.plain {n : Nat} {type : String} {a : Action} (h : a.Avoids schema n type) {node : Address}
    (hnode : a.address? = some node) :
    node.Plain ∧ node.origin = n := by
  obtain ⟨t, node, holder, l, rest, rfl, hplain, horigin, -⟩ := h
  cases hnode
  exact ⟨hplain, horigin⟩

namespace Plan

variable {limit n holder next : Nat} {type : String} {d d' : Draft} {acts : List Action}

/-- Planning keeps an aggregate conforming, and plans inserts at declared addresses below the root. -/
theorem typed_of_insertsBelow (hroot : d.root.Canonical) (hc : schema.Conforms d.root) (ht : d.root.type? = some type)
    (h : (insertsBelow schema limit limit (.root n) holder next).Runs d acts d') :
    d'.root.Canonical ∧ schema.Conforms d'.root ∧
      ∀ a ∈ acts, ∀ node, a.address? = some node → node.isRoot = false ∧ schema.Typed n type node a.type := by
  obtain ⟨⟨hroot', hc', -⟩, hdraws⟩ :=
    insertsBelow_keeps Edit.walk_typed limit (.root n) _ _ _ _ _ ⟨type, .root⟩ h ⟨hroot, hc, ht⟩
  refine ⟨hroot', hc', fun a ha node hnode => ?_⟩
  obtain ⟨t, node', holder, v, x, rfl, ⟨target, hn⟩, hbelow, ⟨-, hc, ht⟩, hx, hxt⟩ := hdraws a ha
  cases hnode
  cases (hn.conforms hc ht hx).2 t hxt
  exact ⟨hbelow, hn⟩

/-- Planning keeps the key of the root, and plans no insert through the identifier of the root. -/
theorem key?_of_insertsBelow (hs : schema.Separate) (ht : d.root.type? = some type)
    (h : (insertsBelow schema limit limit (.root n) holder next).Runs d acts d') :
    d'.root.type? = some type ∧ schema.key? d'.root = schema.key? d.root ∧ ∀ a ∈ acts, a.Avoids schema n type := by
  obtain ⟨⟨ht', hkey⟩, hdraws⟩ := insertsBelow_keeps (Edit.walk_key (n := n) hs) limit (.root n) _ _ _ _ _
    ⟨trivial, rfl, nofun, by simp [Address.links]⟩ h ⟨ht, rfl⟩
  refine ⟨ht', hkey, fun a ha => ?_⟩
  obtain ⟨t, node, holder, -, -, rfl, ⟨hn, horigin, hpath, hl⟩, hnode, -⟩ := hdraws a ha
  obtain ⟨l, rest, hlinks⟩ : ∃ l rest, node.links = l :: rest := by
    refine List.exists_cons_of_ne_nil ?_
    cases node with
    | root _ => cases hnode
    | child _ _ _ => simp [Address.links]
  exact ⟨t, node, holder, l, rest, rfl, hn, horigin, hpath hnode, hlinks, hl l (by simp [hlinks])⟩

end Plan

/-! ## Writing identifiers back -/

/-- A root of a type below which all entities are of the declared types, with fields and entries in order of their
keys. -/
structure Schema.Admits (schema : Schema) (type : String) (R : Value) : Prop where
  ordered : R.Ordered schema.isId
  conforms : schema.Conforms R
  type_eq : R.type? = some type

theorem Schema.Admits.backFills (h : schema.Admits type R) (hs : schema.Separate) {a : Action} {R' : Value}
    (hn : ∀ node, a.address? = some node → node.Plain) (hR : BackFills schema a R R') : schema.Admits type R' := by
  rcases hR.retouches hn with rfl | ⟨node, -, hretouches⟩
  · exact h
  · obtain ⟨hconforms, htype⟩ := hretouches.conforms hs.spares h.conforms
    exact ⟨hretouches.ordered h.ordered, hconforms, htype.trans h.type_eq⟩

end Aggregate
