import Mathlib
import Aggregate.ChangeSet.Scripted
import Aggregate.Proofs.InPlace
import Aggregate.Proofs.Reach
import Aggregate.Proofs.Settling

/-!
# Containers

What becomes of the orderings of sets while an aggregate is planned and carried out.

- `Value.Keeps`: a set keeps its ordering or is in order of insertion afterwards;
- `Schema.Untouchable`: immutable properties at like places, with no order to settle inside what they hold;
- `Edit.walk_keeps`, `Edit.walk_same`: what planning does to the sets that a property holds;
- `ChangeSet.entity_of_execute`: what each identifier written back keeps, an execution keeps;
- `ChangeSet.contains_of_execute`: sets keep their orderings or are in order of insertion afterwards, and what immutable
  properties hold stays as it is as long as nothing inside is written;
- `ChangeSet.ordering_not_kept`: writing an identifier back replaces the set around the entity, even an immutable one.
-/

namespace Aggregate

open Value (HoldsAlike)

variable {hidden : Value.Hidden} {schema : Schema} {root : Value} {ls : List Link} {name : String}

/-! ## Orderings -/

namespace Value

/-- The ordering of a set. -/
def ordering? : Value → Option SetOrdering
  | set ordering _ => some ordering
  | _ => none

/-- A set has the ordering that it had or is in order of insertion, and what was no set is none. -/
def Keeps (v u : Value) : Prop := v.ordering? = u.ordering? ∨ u.ordering? ≠ none ∧ v.ordering? = some .linked

theorem Keeps.refl (v : Value) : v.Keeps v := .inl rfl

theorem Keeps.trans {v u w : Value} (h : v.Keeps u) (h' : u.Keeps w) : v.Keeps w := by
  unfold Keeps at *
  grind

/-- Assigning an entity inside a container keeps its ordering or puts it in order of insertion. -/
theorem keeps_put {s : Strategy} {c w x : Value} (hw : s.part? c = some w) (hn : w.isEntity = true)
    (hx : x.isEntity = true) : (s.put c x).Keeps c := by
  cases Strategy.holds_of_part? hw with
  | direct =>
    cases c <;> cases hn
    cases x <;> cases hx
    exact .inl rfl
  | mapKey _ | listIndex _ => exact .inl rfl
  | @setPosition position _ _ elements _ =>
    obtain ⟨es, -, -, -, hes⟩ := ValueSet.ofList_linked (elements.set position x)
    rw [Strategy.put, hes]
    exact .inr ⟨Option.some_ne_none _, rfl⟩

theorem keeps_settled {p : Property} {c x : Value} (hx : p.settled? c = some x) : x.Keeps c := by
  obtain ⟨elements, rfl, rfl⟩ := Property.settled?_eq_some hx
  exact .inr ⟨Option.some_ne_none _, rfl⟩

end Value

open Value (Keeps)

/-! ## Planning -/

/-- Immutable sets are never settled. -/
theorem Property.settled?_of_immutable {p : Property} (h : p.immutable = true) (c : Value) : p.settled? c = none := by
  unfold settled?
  split
  · rename_i hmutable
    cases h.symm.trans hmutable
  · rfl

instance (p : Property) (v : Value) : Decidable (v.SettledIn p) := inferInstanceAs (Decidable (_ = none))

theorem Property.settled?_null (p : Property) : p.settled? .null = none := by
  unfold settled?
  split
  · rename_i h
    cases h
  · rfl

/-- The address leads through the property at a place like the given one. -/
def Address.Inside (ls : List Link) (name : String) (node : Address) : Prop :=
  ∃ pre l rest, node.links = pre ++ l :: rest ∧ List.Forall₂ Link.Like ls pre ∧ l.property = name

/-- The property is immutable at like places, and there is no order to settle inside what it holds, by the properties of
any type that occurs at the same place. -/
structure Schema.Untouchable (schema : Schema) (root : Value) (ls : List Link) (name : String) : Prop where
  immutable : ∀ v ∈ root.reach (fun _ _ => false) ls, ∀ e, schema.typeOf? v = some e → ∀ r ∈ e.references,
    r.property.name = name → r.property.immutable = true
  still : ∀ l rest, l.property = name → ∀ v ∈ root.reach (fun _ _ => false) (ls ++ l :: rest),
    ∀ u ∈ root.reach (fun _ _ => false) (ls ++ l :: rest), ∀ e, schema.typeOf? u = some e → ∀ r ∈ e.references,
      v.SettledIn r.property

/-- There is no order to settle inside if no value there has one by any property. -/
theorem Schema.Untouchable.of_everywhere
    (himmutable : ∀ v ∈ root.reach (fun _ _ => false) ls, ∀ e, schema.typeOf? v = some e → ∀ r ∈ e.references,
      r.property.name = name → r.property.immutable = true)
    (hstill : ∀ v ∈ root.reach (fun _ _ => false) ls, (v.field name).Everywhere (fun _ _ => false)
      fun x => ∀ e ∈ schema.types, ∀ r ∈ e.references, x.SettledIn r.property) : schema.Untouchable root ls name where
  immutable := himmutable
  still l rest hname v hv u hu e he r hr := by
    rw [Value.reach_append] at hv
    obtain ⟨w, hw, hv⟩ := List.mem_flatMap.1 hv
    rw [Value.reach, if_neg (by simp [Value.hides]), hname] at hv
    obtain ⟨t, ht, hv⟩ := List.mem_flatMap.1 hv
    obtain ⟨s, hs⟩ := Strategy.exists_part?_of_mem_parts ht
    obtain ⟨type, -, hfind⟩ := Option.bind_eq_some_iff.1 he
    exact (((hstill w hw).placed hs).reach (fun _ _ _ _ => Property.settled?_null _) hv).self e
      (List.mem_of_find?_eq_some hfind) r hr

namespace Edit

variable {ρ : Value → Value → Prop}

/-- Settling an order keeps what values at like places hold, if the set and all containers around it may be replaced. -/
theorem matched_settle (hrefl : ∀ c, ρ c c) {v holder c x : Value} {node : Address} {p : Property} (hn : node.Plain)
    (hv : node.current schema v = .ok holder) (hread : schema.read holder p.name = .ok c) (hx : p.settled? c = some x)
    (hplace : List.Forall₂ Link.Like ls node.links → name = p.name → ρ x c)
    (hin : ∀ pre l rest h t y, node.links = pre ++ l :: rest → List.Forall₂ Link.Like ls pre → l.property = name →
      v.at? pre = some h → l.part? h = some t → t.at? rest = some holder → t.isEntity = true → y.isEntity = true →
        ρ (l.strategy.put (h.field name) y) (h.field name)) :
    Matched (HoldsAlike hidden name ρ) ((v.put node.links (holder.withField p.name x)).reach hidden ls)
      (v.reach hidden ls) := by
  have hw := Address.at?_of_current hn hv
  have hholder : holder.isEntity = true := by
    obtain ⟨type, fields, e, rfl, -⟩ := Schema.read_eq_ok.1 hread
    rfl
  obtain rfl := Schema.field_of_read hread
  obtain ⟨elements, hc, rfl⟩ := Property.settled?_eq_some hx
  refine Value.matched_put hrefl hw hholder (Value.type?_withField ..) (fun pre rest hls hpre => ?_)
    fun pre l rest h t y hlinks hpre hname hh ht hrest hy => ?_
  · refine Value.matched_withField hrefl hholder (fun hrest hname _ => ?_) fun l rest' _ _ => ?_
    · rw [hrest, List.append_nil] at hls
      exact hplace (hls ▸ hpre) hname
    · rw [hc]
      exact Value.matched_parts_of_set hrefl _ _ _ _ _
  · exact hin pre l rest h t y hlinks hpre hname hh ht hrest (Value.isEntity_of_at? hrest hholder) hy

/-- Planning keeps the ordering of each set or puts the set in order of insertion. -/
theorem walk_keeps (hidden : Value.Hidden) (root : Value) (ls : List Link) (name : String) :
    Walk schema (fun v => Matched (HoldsAlike hidden name Keeps) (v.reach hidden ls) (root.reach hidden ls))
      Address.Plain where
  plain := id
  passes hn _ _ :=
    { settle := fun hv hcurrent hread hx =>
        (matched_settle Keeps.refl hn hcurrent hread hx (fun _ _ => Value.keeps_settled hx)
          fun _ l _ h t y _ _ hname _ ht _ htn hy => by
            rw [Link.part?, hname] at ht
            exact Value.keeps_put ht htn hy).trans (HoldsAlike.trans Keeps.trans) hv
      child := fun hpart => ⟨hn, Property.plain_of_mem_parts hpart⟩ }

/-- Planning does not touch what immutable properties hold, if there is nothing to settle inside. -/
theorem walk_same (h : schema.Untouchable root ls name) :
    Walk schema (fun v => ∀ hidden, Matched (HoldsAlike hidden name Eq) (v.reach hidden ls) (root.reach hidden ls))
      Address.Plain where
  plain := id
  passes {node e r} hn hfound hr := by
    obtain ⟨v₀, y, hv₀, hy, he⟩ := hfound
    have hy := Address.at?_of_current hn hy
    refine { settle := fun {v holder c x} hv hcurrent hread hx hidden => ?_
             child := fun hpart => ⟨hn, Property.plain_of_mem_parts hpart⟩ }
    refine (matched_settle Eq.refl hn hcurrent hread hx (fun hlike hname => ?_)
      fun pre l rest _ _ _ hlinks hpre hname _ _ _ _ _ => ?_).trans (HoldsAlike.trans Eq.trans) (hv hidden)
    · -- the property is immutable on an entity of the same type at a like place of the root
      obtain ⟨u, hu, htype, -⟩ := (hv₀ _).1 y (Value.mem_reach_of_at? hlike hy)
      rw [Schema.typeOf?, htype] at he
      rw [Property.settled?_of_immutable (h.immutable u hu e he r hr hname.symm)] at hx
      cases hx
    · -- the root holds both the entity that the property is read by and the one that it is read from
      have hlike : List.Forall₂ Link.Like (ls ++ l :: rest) node.links :=
        hlinks ▸ List.rel_append hpre (List.forall₂_same.2 fun _ _ => .refl _)
      have hw := Address.at?_of_current hn hcurrent
      have hsettled := h.still l rest hname _ (Value.mem_reach_through (hname ▸ hv _) (Value.mem_reach_of_at? hlike hw))
        _ (Value.mem_reach_through (hname ▸ hv₀ _) (Value.mem_reach_of_at? hlike hy)) e he r hr
      rw [Value.SettledIn, Schema.field_of_read hread, hx] at hsettled
      cases hsettled

end Edit

/-! ## Carrying out -/

/-- Writing an identifier back keeps what values at like places hold, if all containers around the entity may be
replaced. -/
theorem BackFills.matched {ρ : Value → Value → Prop} (hrefl : ∀ c, ρ c c) {a : Action} {R R' : Value}
    (hplain : ∀ node, a.address? = some node → node.Plain) (h : BackFills schema a R R')
    (hin : a.generatedId ≠ .none → ∀ node, a.address? = some node → node.Inside ls name →
      ∀ s c t y, Strategy.part? s c = some t → t.isEntity = true → y.isEntity = true → ρ (s.put c y) c) :
    Matched (HoldsAlike schema.isId name ρ) (R'.reach schema.isId ls) (R.reach schema.isId ls) := by
  cases h with
  | none _ => exact .refl (HoldsAlike.refl hrefl) _
  | @write v id node idName hid hnode hname hv ht =>
    have hvn : v.isEntity = true := Value.isEntity_iff.2 ⟨_, ht⟩
    -- of the entity itself, only the identifier changes, which is hidden
    have hhidden : v.hides schema.isId idName = true := by
      simp [Value.hides, ht, BackFills.isId_of_idProperty? hname]
    refine Value.matched_put hrefl (Address.at?_of_current (hplain node hnode) hv) hvn (Value.type?_withField ..)
      (fun _ _ _ _ => Value.matched_withField hrefl hvn (fun _ _ hshown => ?_) fun _ _ _ hshown => ?_)
      fun pre l rest h t y hlinks hlike hproperty _ hpart hrest hy => ?_
    · cases hhidden.symm.trans hshown
    · cases hhidden.symm.trans hshown
    · rw [Link.part?, hproperty] at hpart
      exact hin (by simp [hid]) node hnode ⟨pre, l, rest, hlinks, hlike, hproperty⟩ _ _ t y hpart
        (Value.isEntity_of_at? hrest hvn) hy

/-- Writing an identifier back keeps the type of the root. -/
theorem BackFills.type?_eq {a : Action} {R R' : Value} (hplain : ∀ node, a.address? = some node → node.Plain)
    (h : BackFills schema a R R') : R'.type? = R.type? := by
  cases h with
  | none _ => rfl
  | write _ hnode _ hv _ =>
    exact Value.type?_put (Address.at?_of_current (hplain _ hnode) hv) (Value.type?_withField ..)

namespace ChangeSet

variable {σ : Type} {limit n : Nat} {w w' : Workspace} {set : ChangeSet} {other : Option Schema} {executor : Executor σ}
  {s : σ} {R : Value} {type : String}

/-- An action as planned for an aggregate: it has no identifier yet, and it is about an entity of the aggregate, which
is the root for a root action. -/
structure PlannedFor (n : Nat) (a : Action) : Prop where
  fresh : a.generatedId = none
  root : a.isRoot = true → a.address? = some (.root n)
  plain : ∀ node, a.address? = some node → node.Plain ∧ node.origin = n

/-- How a run stands: the calls so far have kept a property of the root, and the run knows the root after its action. -/
structure Standing (schema : Schema) (n : Nat) (type : String) (P : List Call → Value → Prop) (pending : List Action)
    (root? : Option Address) (w : Workspace) (log : List Call) (R : Value) : Prop where
  holds : w.Holds schema n R
  type_eq : R.type? = some type
  kept : P log R
  planned : ∀ a ∈ pending, PlannedFor n a
  known : root? = some (.root n) ∨ ∃ a ∈ pending, a.isRoot = true

/-- An action that is carried out leaves a run that stands as before. -/
theorem Standing.step {P : List Call → Value → Prop} {executed rest : List Action} {a : Action} {root? : Option Address}
    {log : List Call} {id? : Option Value} (ho : other.getD schema = schema)
    (hstep : ∀ log R R' a id?, PlannedFor n a → P log R → BackFills schema (a.answered id?) R R' →
      P (log ++ [⟨a, .ok id?⟩]) R')
    (h : Standing schema n type P (a :: rest) root? w log R)
    (hcarries : Carries other executor.logged executed a w (s, log) id? w') :
    ∃ R', Standing schema n type P rest
      (((a.answered id?).rootAddress? type (w.record (executor.logged w a executed (s, log)).writes)).or root?) w'
      (log ++ [⟨a, .ok id?⟩]) R' := by
  obtain ⟨ha, hrest⟩ := List.forall_mem_cons.1 h.planned
  have hrecord := h.holds.record (executor.logged w a executed (s, log)).writes
  have hplain : ∀ node, (a.answered id?).address? = some node → node.Plain ∧ node.origin = n := by
    simpa using ha.plain
  obtain ⟨R', hfills, hw'⟩ := Action.backFills_of_backFillIn ho hrecord hplain hcarries.filled
  have hroot := rootAddress?_eq (a := a.answered id?) hrecord (by simpa using ha.root) h.type_eq
  refine ⟨R', hw', (hfills.type?_eq fun node hnode => (hplain node hnode).1).trans h.type_eq,
    hstep log R R' a id? ha h.kept hfills, hrest, ?_⟩
  rw [hroot, Action.isRoot_answered]
  -- the root is known from the root action on
  rcases h.known with rfl | ⟨b, hb, hbroot⟩
  · left
    cases a.isRoot <;> rfl
  · rcases List.mem_cons.1 hb with rfl | hb
    · left
      rw [if_pos hbroot, Option.some_or]
    · exact .inr ⟨b, hb, hbroot⟩

/-- What each identifier written back keeps, an execution that succeeds keeps. -/
theorem entity_of_execute {P : List Call → Value → Prop} (ho : other.getD schema = schema)
    (hplanned : ∀ a ∈ set.actions, PlannedFor n a) (hroot : ∃ a ∈ set.actions, a.isRoot = true)
    (hw : w.Holds schema n R) (ht : R.type? = some set.type) (hP : P [] R)
    (hstep : ∀ log R R' a id?, PlannedFor n a → P log R → BackFills schema (a.answered id?) R R' →
      P (log ++ [⟨a, .ok id?⟩]) R')
    (hok : (execute other executor set w s).answer = .ok ()) :
    ∃ v, (execute other executor set w s).set.entity = some v ∧ P (calls other executor set w s) v := by
  -- of all runs of an executor, the logged one has the calls so far in its state
  generalize hr : run other executor.logged set.type [] set.actions none w (s, []) = r
  obtain ⟨-, hdone⟩ := run_induction (J := fun _ => True)
    (I := fun _ pending root? w s => ∃ R, Standing schema n set.type P pending root? w s.2 R)
    (fun _ => trivial) (fun _ _ => trivial) (fun {executed a rest root? w s id? w'} ⟨R, h⟩ hcarries => by
      have hanswer : (executor w a executed s.1).answer = .ok id? := hcarries.answer
      rw [show (executor.logged w a executed s).state.2 = s.2 ++ [⟨a, .ok id?⟩] by rw [← hanswer]; rfl]
      exact h.step ho hstep hcarries)
    hr ⟨R, hw, ht, hP, hplanned, .inr hroot⟩
  obtain ⟨hanswer, hset⟩ :
      (execute other executor.logged set w (s, [])).answer = (execute other executor set w s).answer ∧
      (execute other executor.logged set w (s, [])).set = (execute other executor set w s).set := execute_logged set
  rw [calls, state_execute, hr, ← hset]
  refine (execute_of_run set hr fun x hx => ?_).2 (hanswer.trans hok)
  obtain ⟨_, R', h⟩ := hdone x hx
  obtain rfl := h.known.resolve_right (by simp)
  exact ⟨.root n, R', rfl, h.holds.current rfl, h.kept⟩

/-- The actions of a plan that stores an aggregate are planned for it, and what planning keeps holds of the root. -/
theorem plannedFor_of_plan (hplan : planInsert limit w root = (.ok set, w') ∨ planUpdate limit w root = (.ok set, w') ∨
      planSave limit w root = (.ok set, w')) :
    (∀ a ∈ set.actions, PlannedFor w.roots.length a) ∧ (∃ a ∈ set.actions, a.isRoot = true) ∧
      root.type? = some set.type ∧ ∃ R, w'.Holds w.schema w.roots.length R ∧
        ∀ P : Value → Prop, Edit.Walk w.schema P Address.Plain → P root → P R := by
  obtain ⟨type, deletes, head, inserts, d, hstarts, rfl, hinserts, hschema, hroots⟩ := starts_of_plan hplan
  have hplain : (Address.root w.roots.length).Plain := trivial
  refine ⟨?_, ⟨head, by simp, hstarts.isRoot_head⟩, hstarts.type?_eq, d.root, ⟨hschema, by simp [hroots]⟩,
    fun P hw hP => (Plan.insertsBelow_keeps hw limit _ _ _ _ _ _ hplain hinserts hP).1⟩
  show ∀ a ∈ deletes ++ head :: inserts, PlannedFor w.roots.length a
  rw [List.append_cons]
  refine List.forall_mem_append.2 ⟨fun a ha => ?_, fun a ha => ?_⟩
  · have haims := hstarts.aims (fun _ _ => false) a ha
    refine ⟨haims.fresh, haims.root, fun node hnode => ?_⟩
    obtain ⟨v, hv, -⟩ := haims.occurs node hnode
    exact ⟨hv.plain, hv.origin_eq⟩
  · have hwalk : Edit.Walk w.schema _ fun node => node.Plain ∧ node.origin = w.roots.length :=
      Edit.walk_origin (Edit.walk_keeps (fun _ _ => false) root [] "") _
    have hdraws := (Plan.insertsBelow_keeps hwalk limit _ _ _ _ _ _ ⟨hplain, rfl⟩ hinserts
      (.refl (HoldsAlike.refl Keeps.refl) _)).2 a ha
    obtain ⟨type, node, holder, v, x, rfl, hnode, -⟩ := hdraws
    exact ⟨rfl, nofun, fun node' hnode' => Option.some.inj hnode' ▸ hnode⟩

end ChangeSet

/-! ## Plans and executions -/

/-- The call has made up an identifier for an entity inside what the property holds at a place like the given one. -/
def Call.Enters (ls : List Link) (name : String) (c : Call) : Prop :=
  (∃ id, c.answer = .ok (some id)) ∧ ∃ node, c.action.address? = some node ∧ node.Inside ls name

/-- Calls that make up no identifier or are for the root enter nothing. -/
theorem Call.not_enters {c : Call} {n : Nat} (h : c.answer = .ok none ∨ c.action.address? = some (.root n)) :
    ¬ c.Enters ls name := by
  rintro ⟨⟨id, hid⟩, node, hnode, pre, l, rest, hlinks, -⟩
  rcases h with h | h
  · cases hid.symm.trans h
  · cases hnode.symm.trans h
    simp [Address.links] at hlinks

/-- What an aggregate holds in a property at places like the given one, before and after it was planned and carried out
with these calls. -/
structure Contains (schema : Schema) (root : Value) (calls : List Call) (v : Value) (ls : List Link) (name : String) :
    Prop where
  /-- Each set has its ordering or is in order of insertion. -/
  keeps : Matched (HoldsAlike schema.isId name Keeps) (v.reach schema.isId ls) (root.reach schema.isId ls)
  /-- Immutable sets are the same, unless there is an order to settle inside or an identifier was made up for an entity
  inside. -/
  same : schema.Untouchable root ls name → (∀ c ∈ calls, ¬ c.Enters ls name) →
    Matched (HoldsAlike schema.isId name Eq) (v.reach schema.isId ls) (root.reach schema.isId ls)

namespace Contains

theorem of_walk {R : Value} (h : ∀ P : Value → Prop, Edit.Walk schema P Address.Plain → P root → P R) :
    Contains schema root [] R ls name where
  keeps := h _ (Edit.walk_keeps _ root ls name) (.refl (HoldsAlike.refl Keeps.refl) _)
  same huntouchable _ := h _ (Edit.walk_same huntouchable) (fun _ => .refl (HoldsAlike.refl Eq.refl) _) _

theorem backFills {n : Nat} {a : Action} {id? : Option Value} {R R' : Value} {calls : List Call}
    (ha : ChangeSet.PlannedFor n a) (h : Contains schema root calls R ls name)
    (hfills : BackFills schema (a.answered id?) R R') :
    Contains schema root (calls ++ [⟨a, .ok id?⟩]) R' ls name := by
  have hplain : ∀ node, (a.answered id?).address? = some node → node.Plain := fun node hnode =>
    (ha.plain node (by simpa using hnode)).1
  refine ⟨?_, fun huntouchable hcalls => ?_⟩
  · refine (hfills.matched Keeps.refl hplain fun _ _ _ _ s c t y ht htn hy => ?_).trans (HoldsAlike.trans Keeps.trans)
      h.keeps
    exact Value.keeps_put ht htn hy
  · obtain ⟨hcalls, hlast⟩ := List.forall_mem_append.1 hcalls
    refine (hfills.matched Eq.refl hplain fun hid node hnode hinside => ?_).trans (HoldsAlike.trans Eq.trans)
      (h.same huntouchable hcalls)
    have hanswered : ∃ id, id? = some id := by
      cases id? with
      | none => exact absurd ha.fresh hid
      | some id => exact ⟨id, rfl⟩
    obtain ⟨id, rfl⟩ := hanswered
    have henters : Call.Enters ls name ⟨a, .ok (some id)⟩ := ⟨⟨id, rfl⟩, node, by simpa using hnode, hinside⟩
    exact absurd henters (hlast _ (List.mem_singleton_self _))

end Contains

namespace ChangeSet

/-- When an aggregate was planned and carried out, each of its sets has the ordering that it had or is in order of
insertion. What immutable properties hold is the same as before, unless there is an order to settle inside or an
identifier was made up for an entity inside. -/
theorem contains_of_execute {σ : Type} (limit : Nat) (w w' : Workspace) (root : Value) (set : ChangeSet)
    (other : Option Schema) (executor : Executor σ) (s : σ) (ho : other.getD w.schema = w.schema)
    (hplan : planInsert limit w root = (.ok set, w') ∨ planUpdate limit w root = (.ok set, w') ∨
      planSave limit w root = (.ok set, w'))
    (hok : (execute other executor set w' s).answer = .ok ()) :
    ∃ v, (execute other executor set w' s).set.entity = some v ∧
      ∀ ls name, Contains w.schema root (calls other executor set w' s) v ls name := by
  obtain ⟨hplanned, hroot, ht, R, hholds, hkeeps⟩ := plannedFor_of_plan hplan
  have hcontains (ls : List Link) (name : String) : Contains w.schema root [] R ls name := .of_walk hkeeps
  have htype : R.type? = root.type? := by
    obtain ⟨u, hu, htype, -⟩ := (hcontains [] "").keeps.1 R (List.mem_singleton_self R)
    rwa [List.mem_singleton.1 hu] at htype
  exact entity_of_execute (P := fun log v => ∀ ls name, Contains w.schema root log v ls name) ho hplanned hroot hholds
    (htype.trans ht) hcontains (fun _ _ _ _ _ ha hP hfills ls name => (hP ls name).backFills ha hfills) hok

end ChangeSet

/-! ## Bags -/

namespace Bag

/-- Bags with an immutable set of items. -/
def entities : Schema where
  types := [
    ⟨"Bag", some "id", [⟨"items", some "Item", .set, none, true⟩]⟩,
    ⟨"Item", some "id", [⟨"n", none, .scalar, none, false⟩]⟩]
  sound := by decide
  distinct := by decide

/-- A bag with these items, in no promised order. -/
def bag (items : List Value) : Value := .entity "Bag" [("items", .set .hashed items)]

/-- Two items that are new. -/
def fresh : List Value := [.entity "Item" [("n", .int 1)], .entity "Item" [("n", .int 2)]]

/-- Two items that have identifiers. -/
def known : List Value := [.entity "Item" [("id", .int 1)], .entity "Item" [("id", .int 2)]]

/-- Executions that make up these identifiers first, and none after them. -/
def replies (ids : List Value) : Scripted.Script := ⟨ids.map fun id => .ok (some id), []⟩

end Bag

namespace ChangeSet

/-- A new bag of items that are known keeps its set. -/
theorem contains_of_execute_bag :
    ∃ set w' v, (none : Option Schema).getD Bag.entities = Bag.entities ∧
      planInsert 1 (.empty Bag.entities) (Bag.bag Bag.known) = (.ok set, w') ∧
      (execute none Scripted.executor set w' (Bag.replies [.int 7])).answer = .ok () ∧
      (execute none Scripted.executor set w' (Bag.replies [.int 7])).set.entity = some v ∧
      v.field "items" = .set .hashed Bag.known := by
  obtain ⟨v, hv, h⟩ := contains_of_execute 1 (.empty Bag.entities) _ (Bag.bag Bag.known) _ none Scripted.executor
    (Bag.replies [.int 7]) rfl (.inl rfl) rfl
  refine ⟨_, _, v, rfl, rfl, rfl, hv, ?_⟩
  have huntouchable : Bag.entities.Untouchable (Bag.bag Bag.known) [] "items" :=
    .of_everywhere (by decide) (List.forall_mem_singleton.2 (by decide +kernel))
  obtain ⟨hsame, -⟩ := (h [] "items").same huntouchable fun c hc => by
    -- only the bag has got an identifier
    refine Call.not_enters (n := 0) ?_
    revert c
    decide +kernel
  obtain ⟨u, hu, -, hfield⟩ := hsame v (List.mem_singleton_self v)
  cases List.mem_singleton.1 hu
  exact hfield rfl

/-- A new bag of new items loses the ordering of its set, which is immutable. -/
theorem ordering_not_kept :
    ∃ set w' v, Bag.entities.Untouchable (Bag.bag Bag.fresh) [] "items" ∧
      planInsert 1 (.empty Bag.entities) (Bag.bag Bag.fresh) = (.ok set, w') ∧
      (execute none Scripted.executor set w' (Bag.replies [.int 7, .int 8, .int 9])).answer = .ok () ∧
      (execute none Scripted.executor set w' (Bag.replies [.int 7, .int 8, .int 9])).set.entity = some v ∧
      ((Bag.bag Bag.fresh).field "items").ordering? = some .hashed ∧ (v.field "items").ordering? = some .linked := by
  refine ⟨_, _, _, ?_, rfl, rfl, rfl, rfl, rfl⟩
  exact .of_everywhere (by decide) (List.forall_mem_singleton.2 (by decide +kernel))

end ChangeSet

end Aggregate
