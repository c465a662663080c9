import Mathlib
import Aggregate.Proofs.Conforming
import Aggregate.Proofs.Identity

/-!
# Settled aggregates

Planning settles the orders of the sets it comes across. An aggregate that was planned without loss has no order left to
settle, and writing identifiers back does not change that.

- `Schema.Settled`: no set of the aggregate is in an order still to be settled;
- `Value.SettledAt`: the same for one property of the entity at the end of some links, which settling another property
  keeps (`Value.SettledAt.settle`);
- `Plan.visits_of_insertsBelow`: what looking up addresses makes hold of the entities that a walk comes to;
- `Plan.settled_of_insertsBelow`: after planning;
- `Schema.Settled.backFills`: after identifiers were written back.
-/

namespace Aggregate

open Value (Retouches Lost Short)

variable {schema : Schema}

/-! ## Settled properties -/

namespace Property

variable {p : Property} {s : Strategy} {c w x : Value}

/-- What is settled is a set in no promised order, which becomes one in order of insertion. -/
theorem settled?_eq_some (h : p.settled? c = some x) :
    ∃ elements, c = .set .hashed elements ∧ x = .set .linked elements := by
  unfold settled? at h
  split at h <;> cases h
  exact ⟨_, rfl, rfl⟩

theorem settled?_linked (p : Property) (elements : List Value) : p.settled? (.set .linked elements) = none := by
  unfold settled?
  split
  · rename_i h
    cases h
  · rfl

theorem settled?_of_settled? {q : Property} (h : p.settled? c = some x) : q.settled? x = none := by
  obtain ⟨elements, -, rfl⟩ := settled?_eq_some h
  exact q.settled?_linked elements

/-- A container with another entity in it has no order to settle. -/
theorem settled?_put (hw : s.part? c = some w) (hx : x.isEntity = true) : p.settled? (s.put c x) = none := by
  cases Strategy.holds_of_part? hw with
  | direct =>
    cases x <;> cases hx
    simp [Strategy.put, settled?]
  | mapKey _ | listIndex _ => simp [Strategy.put, settled?]
  | @setPosition position _ _ elements _ =>
    obtain ⟨es, -, -, -, hes⟩ := ValueSet.ofList_linked (elements.set position x)
    rw [Strategy.put, hes]
    exact p.settled?_linked es

end Property

namespace Value

/-- The property of the value holds no set whose order is to be settled. -/
def SettledIn (p : Property) (v : Value) : Prop := p.settled? (v.field p.name) = none

section SettledIn

variable {p : Property} {ls : List Link} {v w x : Value}

theorem SettledIn.withField {name : String} (h : v.SettledIn p) (hx : p.settled? x = none) :
    (v.withField name x).SettledIn p := by
  unfold SettledIn
  by_cases hname : p.name = name
  · cases ht : v.type? with
    | none => cases v <;> first | exact h | cases ht
    | some type => rwa [hname, field_withField_self ht]
  · rwa [field_withField_of_ne hname]

theorem SettledIn.link_put {l : Link} (h : v.SettledIn p) (hw : l.part? v = some w) (hx : x.isEntity = true) :
    (l.put v x).SettledIn p :=
  h.withField (Property.settled?_put hw hx)

/-- A property stays settled when an entity below takes the place of another. -/
theorem SettledIn.put (h : v.SettledIn p) (hw : at? ls v = some w) (hn : w.isEntity = true) (hxn : x.isEntity = true)
    (hx : w.SettledIn p → x.SettledIn p) : (v.put ls x).SettledIn p := by
  cases ls with
  | nil =>
    cases hw
    exact hx h
  | cons l rest =>
    obtain ⟨u, hu, hw⟩ := Option.bind_eq_some_iff.1 hw
    simp only [Value.put, hu, Option.elim_some]
    exact h.link_put hu (isEntity_put hw hn hxn)

end SettledIn

/-- The entity at the end of some links is settled in a property. -/
def SettledAt (ls : List Link) (p : Property) (v : Value) : Prop :=
  ∃ y, v.at? ls = some y ∧ y.isEntity = true ∧ y.SettledIn p

/-- Links from an entity whose order was settled in one property lead where they led before. -/
theorem at?_withField_settled {q : Property} {v x y : Value} {m : Link} {rest : List Link}
    (hx : q.settled? (v.field q.name) = some x) (hv : v.isEntity = true) (hy : v.at? (m :: rest) = some y)
    (hyn : y.isEntity = true) : (v.withField q.name x).at? (m :: rest) = some y := by
  obtain ⟨t, hm, hrest⟩ := Option.bind_eq_some_iff.1 hy
  suffices hpart : m.part? (v.withField q.name x) = some t by rw [at?, hpart, Option.bind_some, hrest]
  obtain ⟨property, place⟩ := m
  rw [Link.part?] at hm ⊢
  by_cases hname : property = q.name
  · obtain ⟨elements, hc, rfl⟩ := Property.settled?_eq_some hx
    obtain ⟨type, ht⟩ := isEntity_iff.1 hv
    simp only [hname, hc, field_withField_self ht] at hm ⊢
    cases Strategy.holds_of_part? hm with
    | direct => cases isEntity_of_at? hrest hyn
    | setPosition hi => exact hi
  · simpa only [field_withField_of_ne hname] using hm

/-- Settling the order of a set, with nothing lost, leaves settled what was settled before, and settles this set. -/
theorem SettledAt.settle {ls ms : List Link} {v w x : Value} {p q : Property} (h : v.SettledAt ms p)
    (hw : v.at? ls = some w) (hn : w.isEntity = true) (hx : q.settled? (w.field q.name) = some x)
    (hf : Fits ls v (w.withField q.name x)) : (v.put ls (w.withField q.name x)).SettledAt ms p := by
  obtain ⟨y, hy, hyn, hsettled⟩ := h
  have hxn : (w.withField q.name x).isEntity = true := by rw [isEntity_withField, hn]
  rcases at?_put_of_untouched hw (untouched_of_fits hw hn hf ms) hy hyn with
    ⟨rest, hrest, hput⟩ | ⟨m, rest, hrest, hput⟩ | hput
  · refine ⟨_, hput, isEntity_put hrest hn hxn, hsettled.put hrest hn hxn fun hin => ?_⟩
    exact hin.withField (Property.settled?_of_settled? hx)
  · exact ⟨y, hput.trans (at?_withField_settled hx hn hrest hyn), hyn, hsettled⟩
  · exact ⟨y, hput, hyn, hsettled⟩

theorem settledAt_put_self {ls : List Link} {v w x : Value} {q : Property} (hw : v.at? ls = some w)
    (hn : w.isEntity = true) (hx : q.settled? (w.field q.name) = some x) (hf : Fits ls v (w.withField q.name x)) :
    (v.put ls (w.withField q.name x)).SettledAt ls q := by
  obtain ⟨type, ht⟩ := isEntity_iff.1 hn
  refine ⟨_, at?_put_self hw hn hf.firm, (isEntity_withField ..).trans hn, ?_⟩
  rw [SettledIn, field_withField_self ht]
  exact Property.settled?_of_settled? hx

end Value

/-! ## Settled aggregates -/

/-- No reference of the value, or of an entity it holds, directly or further down, has an order to settle. -/
inductive Schema.Settled (schema : Schema) : Value → Prop
  | intro {v : Value} : (∀ e, schema.typeOf? v = some e → ∀ r ∈ e.references, v.SettledIn r.property) →
    (∀ e, schema.typeOf? v = some e → ∀ r ∈ e.references,
      ∀ x ∈ r.property.held (v.field r.property.name), Settled schema x) → Settled schema v

namespace Schema

variable {v : Value} {e : EntityType} {r : Reference}

theorem Settled.settledIn (h : schema.Settled v) (he : schema.typeOf? v = some e) (hr : r ∈ e.references) :
    v.SettledIn r.property := by
  cases h with
  | intro hin _ => exact hin e he r hr

theorem Settled.held (h : schema.Settled v) (he : schema.typeOf? v = some e) (hr : r ∈ e.references) {x : Value}
    (hx : x ∈ r.property.held (v.field r.property.name)) : schema.Settled x := by
  cases h with
  | intro _ hheld => exact hheld e he r hr x hx

theorem Settled.of_type?_eq_none (h : v.type? = none) : schema.Settled v :=
  .intro (fun e he => by simp [typeOf?, h] at he) fun e he => by simp [typeOf?, h] at he

/-- An aggregate is settled if its occurrences are. -/
theorem settled_of_all {o : Occurrence}
    (h : ∀ x ∈ o.all schema, ∀ e, schema.typeOf? x.value = some e → ∀ r ∈ e.references, x.value.SettledIn r.property) :
    schema.Settled o.value := by
  induction o using Occurrence.induction schema with
  | step o ih =>
    refine .intro (h o Occurrence.mem_all_self) fun e he r hr x hx => ?_
    obtain ⟨part, hpart, rfl⟩ := List.mem_map.1 hx
    have hc := Occurrence.mem_children.2 ⟨e, he, r, hr, part, hpart, rfl⟩
    exact ih _ hc fun y hy => h y (Occurrence.mem_all_of_mem_below (Occurrence.mem_below hc hy))

/-- What an occurrence of a settled aggregate holds is settled. -/
theorem Settled.of_mem_children {o c : Occurrence} (h : schema.Settled o.value) (hc : c ∈ o.children schema) :
    schema.Settled c.value := by
  obtain ⟨e, he, r, hr, part, hpart, rfl⟩ := Occurrence.mem_children.1 hc
  exact h.held he hr (List.mem_map_of_mem hpart)

/-! ## Identifiers written back -/

/-- An aggregate stays settled when an entity below takes the place of another, if the new one is settled. -/
theorem Settled.put {ls : List Link} {v w x : Value} (h : schema.Settled v) (hw : v.at? ls = some w)
    (hn : w.isEntity = true) (hxn : x.isEntity = true) (hx : schema.Settled w → schema.Settled x) :
    schema.Settled (v.put ls x) := by
  induction ls generalizing v with
  | nil =>
    cases hw
    exact hx h
  | cons l rest ih =>
    obtain ⟨u, hu, hw⟩ := Option.bind_eq_some_iff.1 hw
    have hun := Value.isEntity_of_at? hw hn
    have hyn : (u.put rest x).isEntity = true := Value.isEntity_put hw hn hxn
    simp only [Value.put, hu, Option.elim_some]
    refine .intro (fun e he r hr => ?_) fun e he r hr y hy => ?_
    all_goals rw [Link.put, typeOf?_withField] at he
    · exact (h.settledIn he hr).link_put hu hyn
    · rcases Property.mem_held_link_put hu hun hyn hy with ⟨rfl, hu⟩ | hy | hy
      · exact ih (h.held he hr hu) hw
      · exact h.held he hr hy
      · exact .of_type?_eq_none hy

theorem Settled.withField_of_idProperty? (hs : schema.Separate) {type name : String} (h : schema.Settled v)
    (ht : v.type? = some type) (hname : schema.idProperty? type = some name) (id : Value) :
    schema.Settled (v.withField name id) := by
  have hfield {e : EntityType} (he : schema.typeOf? v = some e) {r : Reference} (hr : r ∈ e.references) :
      (v.withField name id).field r.property.name = v.field r.property.name := by
    refine Value.field_withField_of_ne ?_ v id
    rintro rfl
    have := shows_of_typeOf? hs.spares he hr type ht
    rw [BackFills.isId_of_idProperty? hname] at this
    cases this
  refine .intro (fun e he r hr => ?_) fun e he r hr x hx => ?_
  all_goals rw [typeOf?_withField] at he
  · rw [Value.SettledIn, hfield he hr]
    exact h.settledIn he hr
  · rw [hfield he hr] at hx
    exact h.held he hr hx

/-- An aggregate stays settled when an identifier is written back. -/
theorem Settled.backFills (hs : schema.Separate) {a : Action} {R R' : Value} (h : schema.Settled R)
    (hn : ∀ node, a.address? = some node → node.Plain) (hR : BackFills schema a R R') : schema.Settled R' := by
  cases hR with
  | none _ => exact h
  | @write v id node name _ hnode hname hv ht =>
    have hvn := Value.isEntity_iff.2 ⟨_, ht⟩
    exact h.put (Address.at?_of_current (hn node hnode) hv) hvn ((Value.isEntity_withField ..).trans hvn) fun hv =>
      hv.withField_of_idProperty? hs ht hname id

end Schema

/-! ## Planning -/

/-- Each occurrence has its insert. -/
theorem Inserts.exists_of_mem {base : Nat} {before xs : List Occurrence} {acts : List Action}
    (h : Inserts base before xs acts) {o : Occurrence} (ho : o ∈ xs) : ∃ a ∈ acts, a.address? = some o.node := by
  induction h with
  | nil => cases ho
  | cons _ _ _ _ _ ih =>
    rcases List.mem_cons.1 ho with rfl | ho
    · exact ⟨_, List.mem_cons_self, rfl⟩
    · obtain ⟨a, ha, hnode⟩ := ih ho
      exact ⟨a, List.mem_cons_of_mem _ ha, hnode⟩

/-- In a conforming aggregate each entity is at a declared address. -/
theorem Occurs.typed {n : Nat} {type : String} {R : Value} {o : Occurrence} (h : Occurs schema n R o)
    (hc : schema.Conforms R) (ht : R.type? = some type) :
    schema.Conforms o.value ∧ ∀ t, o.value.type? = some t → schema.Typed n type o.node t := by
  induction h with
  | root =>
    refine ⟨hc, fun t h => ?_⟩
    cases ht.symm.trans h
    exact .root
  | child _ hmem ih =>
    obtain ⟨hconforms, htyped⟩ := ih
    obtain ⟨e, he, r, hr, part, hpart, rfl⟩ := Occurrence.mem_children.1 hmem
    have hheld := List.mem_map_of_mem (f := (·.2)) hpart
    refine ⟨hconforms.held he hr hheld, fun t hpt => ?_⟩
    obtain ⟨t', ht', he'⟩ := Option.bind_eq_some_iff.1 he
    cases hconforms.type_eq he hr hheld hpt
    exact (htyped t' ht').child he' hr hpart

namespace Value

/-- What was lost can be told from the aggregate as it was. -/
theorem Short.ne {ls : List Link} {u e : Value} (h : Short ls u e) : e ≠ u := by
  rintro rfl
  induction ls generalizing e with
  | nil => exact h
  | cons l rest ih =>
    rcases h with ⟨hlt, -⟩ | ⟨-, u', r', hu, hr, -, h⟩
    · exact Nat.lt_irrefl _ hlt
    · cases hu.symm.trans hr
      exact ih h

end Value

namespace Edit

open ExceptT (Runs runs_pure)

variable {n : Nat} {type target : String} {u : Value} {C D : Value → Prop} {node : Address} {e : EntityType}
  {d d' : Draft} {nodes : List Address}

/-- A conforming aggregate on the way from one that looks to the erasure of identifiers like `u`: elements of sets were
lost, or it looks so still and has a further property. -/
structure Intact (schema : Schema) (type : String) (u : Value) (C : Value → Prop) (v : Value) : Prop where
  canonical : v.Canonical
  conforms : schema.Conforms v
  type_eq : v.type? = some type
  lost_or : (∃ places, Lost schema.isId u places (v.erase schema.isId)) ∨ v.erase schema.isId = u ∧ C v

theorem Intact.mono {v : Value} (h : Intact schema type u C v) (hD : C v → D v) : Intact schema type u D v :=
  ⟨h.canonical, h.conforms, h.type_eq, h.lost_or.imp_right fun hC => ⟨hC.1, hD hC.2⟩⟩

theorem Intact.and {v : Value} (hC : Intact schema type u C v) (hD : Intact schema type u D v) :
    Intact schema type u (fun v => C v ∧ D v) v := by
  refine ⟨hC.canonical, hC.conforms, hC.type_eq, ?_⟩
  rcases hC.lost_or with hlost | ⟨hu, hC⟩
  · exact .inl hlost
  · exact hD.lost_or.imp_right fun hD => ⟨hu, hC, hD.2⟩

theorem Intact.of_erase_eq {v : Value} (h : Intact schema type u C v) (hu : v.erase schema.isId = u) : C v := by
  rcases h.lost_or with ⟨_, _, _, _, hshort⟩ | ⟨-, hC⟩
  · exact absurd hu hshort.ne
  · exact hC

/-- Settling an order where nothing is lost keeps the property. -/
def Bears (C : Value → Prop) : Prop :=
  ∀ {ls : List Link} {v w x : Value} {q : Property}, C v → v.at? ls = some w → w.isEntity = true →
    q.settled? (w.field q.name) = some x → Value.Fits ls v (w.withField q.name x) → C (v.put ls (w.withField q.name x))

theorem bears_settledAt (ls : List Link) (p : Property) : Bears (Value.SettledAt ls p) :=
  fun h hw hn hx hf => h.settle hw hn hx hf

/-- Settling one property, and what it takes that nothing is lost. -/
theorem Intact.settle (hs : schema.Separate) (hn : schema.Typed n type node target) {v holder x : Value} {p : Property}
    (h : Intact schema type u C v) (hv : node.current schema v = .ok holder)
    (hread : schema.read holder p.name = .ok (holder.field p.name)) (hx : p.settled? (holder.field p.name) = some x)
    (hD : C v → Value.Fits node.links v (holder.withField p.name x) → D (v.put node.links (holder.withField p.name x))) :
    Intact schema type u D (v.put node.links (holder.withField p.name x)) := by
  have hat := Address.at?_of_current hn.plain hv
  have hshown := hn.shown hs h.conforms h.type_eq hv
  have hretouch : Retouches schema.isId (fun _ _ => false) _ _ _ := retouches_settled hn.plain hv hread hx h.canonical
  obtain ⟨hconforms, htype⟩ := hretouch.conforms hs.spares h.conforms
  refine ⟨hretouch.ordered h.canonical, hconforms, htype.trans h.type_eq, ?_⟩
  rcases h.lost_or with ⟨places, hlost⟩ | ⟨rfl, hC⟩
  · exact .inl ⟨places, hlost.retouches hretouch h.canonical.hide⟩
  · rcases hretouch.erase_eq_or_lost le_rfl h.canonical.hide hshown with heq | hlost
    · obtain ⟨t, fields, e, rfl, -⟩ := Schema.read_eq_ok.1 hread
      exact .inr ⟨heq, hD hC (Value.fits_of_erase_eq hat rfl hshown heq)⟩
    · exact .inl ⟨_, hlost⟩

/-- Walking keeps what settling bears. -/
theorem passes_intact (hs : schema.Separate) (hC : Bears C) (hn : schema.Typed n type node target)
    (he : schema.entity? target = some e) {r : Reference} (hr : r ∈ e.references) :
    Passes schema (Intact schema type u C) (fun node => ∃ target, schema.Typed n type node target) node e r.property where
  settle {v holder c x} h hholder hread hx := by
    obtain rfl := Schema.field_of_read hread
    refine h.settle hs hn hholder hread hx fun hCv hfits => hC hCv (Address.at?_of_current hn.plain hholder) ?_ hx hfits
    obtain ⟨t, fields, e, rfl, -⟩ := Schema.read_eq_ok.1 hread
    rfl
  child hp := ⟨_, hn.child he hr hp⟩

theorem walk_intact (hs : schema.Separate) (hC : Bears C) :
    Walk schema (Intact schema type u C) (fun node => ∃ target, schema.Typed n type node target) where
  plain := fun ⟨_, h⟩ => h.plain
  passes := fun ⟨target, hn⟩ ⟨v, y, h, hy, he⟩ hr => by
    obtain ⟨t, hyt, he⟩ := Option.bind_eq_some_iff.1 he
    cases (hn.conforms h.conforms h.type_eq hy).2 t hyt
    exact passes_intact hs hC hn he hr

/-- Looking up what an entity holds in one property settles it. -/
theorem settledAt_of_childrenBy (hs : schema.Separate) (hn : schema.Typed n type node target) {p : Property}
    (h : (childrenBy schema node e.name p).Runs d nodes d') (hd : Intact schema type u (fun _ => True) d.root) :
    Intact schema type u (Value.SettledAt node.links p) d'.root := by
  obtain ⟨holder, c, hv, hread⟩ := runs_childrenBy_read h
  obtain ⟨d₁, hd₁, hruns⟩ := runs_childrenBy e.name hn.plain hv hread
  obtain ⟨-, -, rfl⟩ := (hruns _ _).1 h
  obtain rfl := Schema.field_of_read hread
  have hat := Address.at?_of_current hn.plain hv
  have hholder : holder.isEntity = true := by
    obtain ⟨t, fields, e, rfl, -⟩ := Schema.read_eq_ok.1 hread
    rfl
  rcases hd₁ with ⟨hnone, rfl⟩ | ⟨x, hx, hd₁⟩
  · exact hd.mono fun _ => ⟨holder, hat, hholder, hnone⟩
  · rw [hd₁]
    exact hd.settle hs hn hv hread hx fun _ hfits => Value.settledAt_put_self hat hholder hx hfits

theorem settledAt_of_childrenAlong (hs : schema.Separate) (hn : schema.Typed n type node target)
    (he : schema.entity? target = some e) {rs : List Reference} (hrs : ∀ r ∈ rs, r ∈ e.references)
    (h : (childrenAlong schema node e.name rs).Runs d nodes d') (hd : Intact schema type u (fun _ => True) d.root) :
    Intact schema type u (fun v => ∀ r ∈ rs, v.SettledAt node.links r.property) d'.root := by
  induction rs generalizing d nodes with
  | nil =>
    obtain ⟨-, rfl⟩ := runs_pure.1 h
    exact hd.mono fun _ => nofun
  | cons r rest ih =>
    rw [List.forall_mem_cons] at hrs
    obtain ⟨here, d₁, further, hhere, hfurther, rfl⟩ := runs_childrenAlong_cons.1 h
    have hsettled := settledAt_of_childrenBy hs hn hhere hd
    obtain ⟨hkept, -⟩ := childrenAlong_keeps hn.plain
      (fun r hr => passes_intact hs (bears_settledAt _ _) hn he (hrs.2 r hr)) hfurther hsettled
    refine (hkept.and (ih hrs.2 hfurther (hsettled.mono fun _ => trivial))).mono fun ⟨hr, hrest⟩ => ?_
    exact List.forall_mem_cons.2 ⟨hr, hrest⟩

/-- The entity declared at an address is settled in all references. -/
def SettledThrough (schema : Schema) (n : Nat) (type : String) (node : Address) (v : Value) : Prop :=
  ∀ target e, schema.Typed n type node target → schema.entity? target = some e → ∀ r ∈ e.references,
    v.SettledAt node.links r.property

theorem bears_settledThrough (schema : Schema) (n : Nat) (type : String) (node : Address) :
    Bears (SettledThrough schema n type node) :=
  fun h hw hn hx hf target e ht he r hr => (h target e ht he r hr).settle hw hn hx hf

/-- Looking up what an entity holds settles it. -/
theorem settledThrough_of_children (hs : schema.Separate) (hn : schema.Typed n type node target)
    (h : (children schema node).Runs d nodes d') (hd : Intact schema type u (fun _ => True) d.root) :
    Intact schema type u (SettledThrough schema n type node) d'.root := by
  obtain ⟨v, e, hv, he, h⟩ := runs_children.1 h
  obtain ⟨t, hvt, he⟩ := Option.bind_eq_some_iff.1 he
  have htarget {target' : String} (hn' : schema.Typed n type node target') : t = target' :=
    (hn'.conforms hd.conforms hd.type_eq hv).2 t hvt
  cases htarget hn
  refine (settledAt_of_childrenAlong hs hn he (fun _ => id) h hd).mono fun hsettled target' e' hn' he' => ?_
  cases htarget hn'
  cases he.symm.trans he'
  exact hsettled

end Edit

namespace Plan

open ExceptT (Runs runs_pure)

variable {P : Value → Prop} {Q : Address → Value → Prop} {N : Address → Prop} {limit n holder next : Nat}
  {below : Address → (holder next : Nat) → Edit ChangeError (List Action)} {d d' : Draft} {acts : List Action}
  {nodes : List Address} {type : String}

/-- The property of nodes holds of a node once the walk has come to it, and of the nodes that it goes on to. -/
def Visits (P : Value → Prop) (Q : Address → Value → Prop) (N : Address → Prop)
    (below : Address → (holder next : Nat) → Edit ChangeError (List Action)) : Prop :=
  ∀ node holder next d acts d', N node → (below node holder next).Runs d acts d' → P d.root →
    Q node d'.root ∧ ∀ a ∈ acts, ∀ m, a.address? = some m → Q m d'.root

theorem visits_of_insertsAt (hP : ∀ m v, Q m v → P v) (hvisits : Visits P Q N below)
    (hkeeps : ∀ m, Keeps schema (Q m) N below) (hn : ∀ n ∈ nodes, N n ∧ n.isRoot = false)
    (h : (insertsAt schema below holder nodes next).Runs d acts d') (hd : P d.root) :
    ∀ a ∈ acts, ∀ m, a.address? = some m → Q m d'.root := by
  induction nodes generalizing d next acts with
  | nil =>
    obtain ⟨rfl, -⟩ := runs_pure.1 h
    nofun
  | cons n rest ih =>
    rw [List.forall_mem_cons] at hn
    obtain ⟨v, t, inner, d₁, further, -, -, hinner, hfurther, rfl⟩ := runs_insertsAt_cons.1 h
    obtain ⟨hnode, hacts⟩ := hvisits _ _ _ _ _ _ hn.1.1 hinner hd
    -- what holds of a node already outlasts the rest of the walk
    have hlasts {m : Address} (hm : Q m d₁.root) : Q m d'.root := (insertsAt_keeps (hkeeps m) hn.2 hfurther hm).1
    refine List.forall_mem_append.2 ⟨List.forall_mem_cons.2 ⟨fun m hm => ?_, fun a ha m hm => hlasts (hacts a ha m hm)⟩,
      ih hn.2 hfurther (hP n _ hnode)⟩
    cases hm
    exact hlasts hnode

/-- What looking up what a node holds makes hold of it, and what walking keeps, holds of all nodes of a walk. -/
theorem visits_of_insertsBelow (hP : ∀ m v, Q m v → P v) (hwalk : ∀ m, Edit.Walk schema (Q m) N)
    (hlook : ∀ {node d nodes d'}, N node → (Edit.children schema node).Runs d nodes d' → P d.root →
      Q node d'.root ∧ ∀ n ∈ nodes, N n ∧ n.isRoot = false) (room : Nat) :
    Visits P Q N (insertsBelow schema limit room) := by
  induction room with
  | zero =>
    intro node holder next d acts d' hn h hd
    obtain ⟨hnone, rfl⟩ := runs_insertsBelow_zero.1 h
    exact ⟨(hlook hn hnone hd).1, nofun⟩
  | succ room ih =>
    intro node holder next d acts d' hn h hd
    obtain ⟨nodes, d₁, hnodes, h⟩ := runs_insertsBelow_succ.1 h
    obtain ⟨hnode, hnodes⟩ := hlook hn hnodes hd
    have hkeeps (m : Address) : Keeps schema (Q m) N (insertsBelow schema limit room) := insertsBelow_keeps (hwalk m) room
    exact ⟨(insertsAt_keeps (hkeeps node) hnodes h hnode).1, visits_of_insertsAt hP ih hkeeps hnodes h (hP node _ hnode)⟩

/-- Planning without loss settles the entities that it inserts, and the root. -/
theorem settledThrough_of_insertsBelow (hs : schema.Separate) (hroot : d.root.Canonical) (hc : schema.Conforms d.root)
    (ht : d.root.type? = some type) (h : (insertsBelow schema limit limit (.root n) holder next).Runs d acts d')
    (hu : d'.root.erase schema.isId = d.root.erase schema.isId) {node : Address}
    (hnode : node = .root n ∨ ∃ a ∈ acts, a.address? = some node) :
    Edit.SettledThrough schema n type node d'.root := by
  have hvisits : Visits (Edit.Intact schema type (d.root.erase schema.isId) fun _ => True)
      (fun m => Edit.Intact schema type (d.root.erase schema.isId) (Edit.SettledThrough schema n type m))
      (fun node => ∃ target, schema.Typed n type node target) (insertsBelow schema limit limit) :=
    visits_of_insertsBelow (fun m v hv => hv.mono fun _ => trivial)
      (fun m => Edit.walk_intact hs (Edit.bears_settledThrough schema n type m))
      (fun {node d nodes d'} hn hruns hd => by
        obtain ⟨target, hn⟩ := hn
        exact ⟨Edit.settledThrough_of_children hs hn hruns hd,
          (Edit.children_keeps (Edit.walk_intact hs fun _ _ _ _ _ => trivial) ⟨target, hn⟩ hruns hd).2⟩) limit
  obtain ⟨hself, hacts⟩ := hvisits _ _ _ _ _ _ ⟨type, .root⟩ h ⟨hroot, hc, ht, .inr ⟨rfl, trivial⟩⟩
  rcases hnode with rfl | ⟨a, ha, hnode⟩
  · exact hself.of_erase_eq hu
  · exact (hacts a ha node hnode).of_erase_eq hu

/-- After planning without loss the aggregate is settled. -/
theorem settled_of_insertsBelow (hs : schema.Separate) {base : Nat} (hroot : d.root.Canonical)
    (hc : schema.Conforms d.root) (ht : d.root.type? = some type)
    (h : (insertsBelow schema limit limit (.root n) holder next).Runs d acts d')
    (hu : d'.root.erase schema.isId = d.root.erase schema.isId)
    (hinserts : Inserts base [⟨.root n, d.root⟩] (Occurrence.below schema ⟨.root n, d.root⟩) acts) :
    schema.Settled d'.root := by
  obtain ⟨hroot', hc', -⟩ := typed_of_insertsBelow hroot hc ht h
  have ht' : d'.root.type? = some type := by rw [← Value.type?_erase, hu, Value.type?_erase, ht]
  refine Schema.settled_of_all (o := ⟨.root n, d'.root⟩) fun x hx e he r hr => ?_
  have hx := mem_occurrences_iff.1 hx
  obtain ⟨hcurrent, -⟩ := hx.reads hs.spares hroot'.hide
  have hnode : x.node = .root n ∨ ∃ a ∈ acts, a.address? = some x.node := by
    have hmem : x.erase schema.isId ∈ schema.occurrences n (d.root.erase schema.isId) := by
      rw [← hu]
      exact mem_occurrences_iff.2 (hx.erase hs.spares)
    rw [occurrences_erase hs.spares] at hmem
    obtain ⟨y, hy, hyx⟩ := List.mem_map.1 hmem
    obtain ⟨hnode, -⟩ := Occurrence.mk.inj hyx
    rw [← hnode]
    rw [Schema.occurrences, Occurrence.all_eq] at hy
    rcases List.mem_cons.1 hy with rfl | hy
    · exact .inl rfl
    · exact .inr (hinserts.exists_of_mem hy)
  obtain ⟨t, hxt, he⟩ := Option.bind_eq_some_iff.1 he
  obtain ⟨y, hy, -, hsettled⟩ := settledThrough_of_insertsBelow hs hroot hc ht h hu hnode t e
    ((hx.typed hc' ht').2 t hxt) he r hr
  cases hy.symm.trans (Address.at?_of_current hx.plain hcurrent)
  exact hsettled

end Plan

end Aggregate
