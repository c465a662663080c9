import Mathlib
import Aggregate.Proofs.Soundness

/-!
# Deletes

When the rows of an aggregate can be planned to be deleted, and what the plan is.

- `Schema.Refers`: the references from type to type; the declared paths below a type can be listed if and only if all
  types reached from it are registered, none is reached from itself, and no declared path is too long
  (`Schema.declared_ok_iff`);
- `Schema.TopFirst`: where the properties of each type have different names, no path in the list of declared paths
  begins with a later one, so that none is listed twice;
- `Schema.declaredNested`: the recursion over the declarations with a bound on the calls nested in each other; the
  number of types bounds them, whatever the limit for the paths is (`Schema.declaredNested_declared`);
- `Plan.delete_exact`: all of it for the plan that deletes an aggregate.
-/

open Relation (ReflTransGen TransGen)

namespace Aggregate

variable {schema : Schema} {limit : Nat}

namespace Schema

/-! ## References from type to type -/

/-- Entities of the first type hold entities of the second one. -/
def Refers (schema : Schema) (type target : String) : Prop :=
  ∃ e, schema.entity? type = some e ∧ ∃ r ∈ e.references, r.target = target

section Listed

variable {below : String → Path → List String → Except ResolutionError (List DeclaredPath)} {type target : String}
  {base : Path} {lineage : List String} {room : Nat}

theorem declaredThrough_ok_iff {rs : List Reference} :
    (∃ ps, declaredThrough below base lineage rs = .ok ps) ↔
      ∀ r ∈ rs, r.target ∉ lineage ∧
        ∃ inner, below r.target (base.child r.property.name) (r.target :: lineage) = .ok inner := by
  induction rs with
  | nil => exact ⟨fun _ => by simp, fun _ => ⟨[], rfl⟩⟩
  | cons r rest ih =>
    rw [List.forall_mem_cons, ← ih]
    constructor
    · rintro ⟨ps, h⟩
      obtain ⟨hr, inner, further, hinner, hfurther, -⟩ := declaredThrough_cons.1 h
      exact ⟨⟨hr, inner, hinner⟩, further, hfurther⟩
    · rintro ⟨⟨hr, inner, hinner⟩, further, hfurther⟩
      exact ⟨_, declaredThrough_cons.2 ⟨hr, inner, further, hinner, hfurther, rfl⟩⟩

/-- The declared paths below a type can be listed. -/
def Listed (schema : Schema) (limit room : Nat) (type : String) (base : Path) (lineage : List String) : Prop :=
  ∃ ps, schema.declaredBelow limit room type base lineage = .ok ps

theorem listed_zero :
    schema.Listed limit 0 type base lineage ↔ ∃ e, schema.entity? type = some e ∧ e.references = [] := by
  simp only [Listed, declaredBelow_zero]
  exact ⟨fun ⟨_, e, he, hrs, _⟩ => ⟨e, he, hrs⟩, fun ⟨e, he, hrs⟩ => ⟨[], e, he, hrs, rfl⟩⟩

theorem listed_succ :
    schema.Listed limit (room + 1) type base lineage ↔ ∃ e, schema.entity? type = some e ∧ ∀ r ∈ e.references,
      r.target ∉ lineage ∧ schema.Listed limit room r.target (base.child r.property.name) (r.target :: lineage) := by
  simp only [Listed, declaredBelow_succ, ← declaredThrough_ok_iff]
  exact ⟨fun ⟨ps, e, he, h⟩ => ⟨e, he, ps, h⟩, fun ⟨e, he, ps, h⟩ => ⟨ps, e, he, h⟩⟩

/-- One reference further, the declared paths can be listed too. -/
theorem Listed.step (h : schema.Listed limit room type base lineage) (hr : schema.Refers type target) :
    target ∉ lineage ∧ ∃ room' base', schema.Listed limit room' target base' (target :: lineage) := by
  obtain ⟨e, he, r, hr, rfl⟩ := hr
  cases room with
  | zero =>
    obtain ⟨f, hf, hrs⟩ := listed_zero.1 h
    cases he.symm.trans hf
    rw [hrs] at hr
    cases hr
  | succ room =>
    obtain ⟨f, hf, hrs⟩ := listed_succ.1 h
    cases he.symm.trans hf
    exact ⟨(hrs r hr).1, room, _, (hrs r hr).2⟩

theorem Listed.registered (h : schema.Listed limit room type base lineage) : ∃ e, schema.entity? type = some e := by
  cases room with
  | zero => exact (listed_zero.1 h).imp fun _ he => he.1
  | succ room => exact (listed_succ.1 h).imp fun _ he => he.1

/-- No type of the lineage is reached again. -/
theorem Listed.not_mem (h : schema.Listed limit room type base lineage) (hreach : TransGen schema.Refers type target) :
    target ∉ lineage := by
  induction hreach using TransGen.head_induction_on generalizing room base lineage with
  | single hr => exact (h.step hr).1
  | head hr _ ih =>
    obtain ⟨-, room', base', hlisted⟩ := h.step hr
    exact fun hmem => ih hlisted (List.mem_cons_of_mem _ hmem)

/-- All types that are reached are registered, and none is reached from itself. -/
theorem Listed.grounded (h : schema.Listed limit room type base lineage) (hmem : type ∈ lineage)
    (hreach : ReflTransGen schema.Refers type target) :
    (∃ e, schema.entity? target = some e) ∧ ¬ TransGen schema.Refers target target := by
  induction hreach using ReflTransGen.head_induction_on generalizing room base lineage with
  | refl => exact ⟨h.registered, fun hcycle => h.not_mem hcycle hmem⟩
  | head hr _ ih =>
    obtain ⟨-, room', base', hlisted⟩ := h.step hr
    exact ih hlisted List.mem_cons_self

/-- Where the types that are reached are registered and none is reached again, the declared paths can be listed if they
are not too long. -/
theorem listed_of_grounded
    (hgrounded : ∀ target, ReflTransGen schema.Refers type target →
      (∃ e, schema.entity? target = some e) ∧ ¬ TransGen schema.Refers target target)
    (hlineage : ∀ t ∈ lineage, ¬ TransGen schema.Refers type t)
    (hlength : ∀ path target, schema.Declares type base path target → path.length ≤ base.length + room) :
    schema.Listed limit room type base lineage := by
  induction room generalizing type base lineage with
  | zero =>
    obtain ⟨⟨e, he⟩, -⟩ := hgrounded type .refl
    refine listed_zero.2 ⟨e, he, List.eq_nil_iff_forall_not_mem.2 fun r hr => ?_⟩
    have hle := hlength _ _ (.here he hr)
    rw [Path.length_child] at hle
    omega
  | succ room ih =>
    obtain ⟨⟨e, he⟩, -⟩ := hgrounded type .refl
    refine listed_succ.2 ⟨e, he, fun r hr => ?_⟩
    have hrefers : schema.Refers type r.target := ⟨e, he, r, hr, rfl⟩
    refine ⟨fun hmem => hlineage _ hmem (.single hrefers), ih ?_ ?_ ?_⟩
    · exact fun target hreach => hgrounded target (.head hrefers hreach)
    · intro t ht hreach
      rcases List.mem_cons.1 ht with rfl | ht
      · exact (hgrounded _ (.single hrefers)).2 hreach
      · exact hlineage t ht (.head hrefers hreach)
    · intro path target hdeclares
      have hle := hlength path target (.further he hr hdeclares)
      rw [Path.length_child]
      omega

end Listed

/-- The declared paths below a type can be listed if and only if the types that are reached from it are registered, none
of them is reached from itself, and no declared path is too long. -/
theorem declared_ok_iff {type : String} :
    (∃ ps, schema.declared limit type = .ok ps) ↔
      (∀ target, ReflTransGen schema.Refers type target →
        (∃ e, schema.entity? target = some e) ∧ ¬ TransGen schema.Refers target target) ∧
      ∀ path target, schema.Declares type .root path target → path.length ≤ limit := by
  constructor
  · rintro ⟨ps, h⟩
    constructor
    · intro target hreach
      have hlisted : schema.Listed limit limit type .root [type] := ⟨ps, h⟩
      exact hlisted.grounded List.mem_cons_self hreach
    · intro path target hdeclares
      exact length_le_of_mem_declared h ⟨path, target⟩ ((mem_declared h _).2 hdeclares)
  · rintro ⟨hgrounded, hlength⟩
    apply listed_of_grounded hgrounded
    · intro t ht
      rw [List.mem_singleton.1 ht]
      exact (hgrounded type .refl).2
    · simpa [Path.length, Path.root] using hlength

/-! ## Each path once -/

/-- A declared path goes on from its base. -/
theorem Declares.prefix_length {type target : String} {base path : Path} (h : schema.Declares type base path target) :
    base.segments <+: path.segments ∧ base.length < path.length := by
  induction h with
  | here _ _ => exact ⟨List.prefix_append _ _, by simp⟩
  | further _ _ _ ih =>
    constructor
    · exact (List.prefix_append _ _).trans ih.1
    · have := ih.2
      rw [Path.length_child] at this
      omega

/-- No path begins with a later one. -/
def TopFirst (ps : List DeclaredPath) : Prop :=
  ps.Pairwise fun p q => ¬ q.path.segments <+: p.path.segments

section TopFirst

variable {below : String → Path → List String → Except ResolutionError (List DeclaredPath)} {type : String}
  {base : Path} {lineage : List String} {room : Nat} {ps : List DeclaredPath}

/-- So no path is listed twice. -/
theorem TopFirst.nodup (h : TopFirst ps) : (ps.map (·.path)).Nodup := by
  refine List.pairwise_map.2 (h.imp ?_)
  intro p q hpq hsame
  apply hpq
  rw [hsame]

theorem property_of_reference? {p : Property} {r : Reference} (h : p.reference? = some r) : r.property = p := by
  unfold Property.reference? at h
  split at h <;> cases h
  rfl

theorem references_sublist (ps : List Property) :
    ((ps.filterMap Property.reference?).map (·.property)).Sublist ps := by
  induction ps with
  | nil => exact .slnil
  | cons p rest ih =>
    cases hp : p.reference? with
    | none =>
      rw [List.filterMap_cons_none hp]
      exact ih.cons p
    | some r =>
      rw [List.filterMap_cons_some hp, List.map_cons, property_of_reference? hp]
      exact ih.cons_cons p

theorem nodup_references {e : EntityType} (h : (e.properties.map (·.name)).Nodup) :
    (e.references.map (·.property.name)).Nodup := by
  have hsublist := (references_sublist e.properties).map (·.name)
  rw [List.map_map] at hsublist
  exact hsublist.nodup h

/-- What is declared through a reference has its path, or goes on from it. -/
theorem prefix_of_mem_declaredThrough {rs : List Reference}
    (hbelow : ∀ {type base lineage ps}, below type base lineage = .ok ps →
      ∀ p, p ∈ ps ↔ schema.Declares type base p.path p.target)
    (h : declaredThrough below base lineage rs = .ok ps) {p : DeclaredPath} (hp : p ∈ ps) :
    ∃ r ∈ rs, (base.child r.property.name).segments <+: p.path.segments := by
  obtain ⟨r, hr, ⟨hpath, -⟩ | hdeclares⟩ := (mem_declaredThrough hbelow h p).1 hp
  · exact ⟨r, hr, hpath ▸ List.prefix_refl _⟩
  · exact ⟨r, hr, hdeclares.prefix_length.1⟩

theorem child_inj_of_prefix {name name' : String} {path : Path} (h : (base.child name).segments <+: path.segments)
    (h' : (base.child name').segments <+: path.segments) : name = name' := by
  have hlength : (base.child name).segments.length = (base.child name').segments.length := by simp [Path.child]
  have heq := (List.prefix_of_prefix_length_le h h' hlength.le).eq_of_length hlength
  simpa [Path.child] using heq

theorem topFirst_declaredThrough {rs : List Reference}
    (hbelow : ∀ {type base lineage ps}, below type base lineage = .ok ps → TopFirst ps ∧
      ∀ p, p ∈ ps ↔ schema.Declares type base p.path p.target)
    (hrs : (rs.map (·.property.name)).Nodup) (h : declaredThrough below base lineage rs = .ok ps) : TopFirst ps := by
  induction rs generalizing ps with
  | nil =>
    cases h
    exact .nil
  | cons r rest ih =>
    obtain ⟨-, inner, further, hinner, hfurther, rfl⟩ := declaredThrough_cons.1 h
    obtain ⟨hr, hrest⟩ := List.nodup_cons.1 hrs
    obtain ⟨hordered, hmem⟩ := hbelow hinner
    -- what comes through a later reference does not lead to the first one
    have hapart (p : DeclaredPath) (hp : (base.child r.property.name).segments <+: p.path.segments) (q : DeclaredPath)
        (hq : q ∈ further) : ¬ q.path.segments <+: p.path.segments := by
      intro hqp
      obtain ⟨s, hs, hsq⟩ := prefix_of_mem_declaredThrough (fun h => (hbelow h).2) hfurther hq
      have hname := child_inj_of_prefix hp (hsq.trans hqp)
      exact hr (List.mem_map.2 ⟨s, hs, hname.symm⟩)
    refine List.pairwise_append.2 ⟨List.pairwise_cons.2 ⟨fun q hq hle => ?_, hordered⟩, ih hrest hfurther, ?_⟩
    · exact absurd hle.length_le ((hmem q).1 hq).prefix_length.2.not_ge
    · intro p hp
      apply hapart p
      rcases List.mem_cons.1 hp with rfl | hp
      · exact List.prefix_refl _
      · exact ((hmem p).1 hp).prefix_length.1

theorem topFirst_declaredBelow (hnames : ∀ e ∈ schema.types, (e.properties.map (·.name)).Nodup)
    (h : schema.declaredBelow limit room type base lineage = .ok ps) : TopFirst ps := by
  induction room generalizing type base lineage ps with
  | zero =>
    obtain ⟨e, -, -, rfl⟩ := declaredBelow_zero.1 h
    exact .nil
  | succ room ih =>
    obtain ⟨e, he, h⟩ := declaredBelow_succ.1 h
    have he := List.mem_of_find?_eq_some he
    exact topFirst_declaredThrough (fun h => ⟨ih h, mem_declaredBelow h⟩) (nodup_references (hnames e he)) h

end TopFirst

/-! ## The depth of the recursion -/

/-- The declared paths through some references, given the declared paths below a type further down, which may take too
many calls to find. -/
def nestedThrough (below : String → Path → List String → ExceptT ResolutionError Option (List DeclaredPath))
    (limit : Nat) (base : Path) (lineage : List String) :
    List Reference → ExceptT ResolutionError Option (List DeclaredPath)
  | [] => return []
  | reference :: rest => do
    let path := base.child reference.property.name
    if limit < path.length then throw (.depthExceeded path limit)
    if reference.target ∈ lineage then throw (.cyclicMapping path reference.target)
    let inner ← below reference.target path (reference.target :: lineage)
    let further ← nestedThrough below limit base lineage rest
    return ⟨path, reference.target⟩ :: inner ++ further

/-- The declared paths below the type at `base`, or none if it takes more than so many calls in each other. -/
def declaredNested (schema : Schema) (limit : Nat) :
    (calls : Nat) → String → Path → List String → ExceptT ResolutionError Option (List DeclaredPath)
  | 0, _, _, _ => (none : Option _)
  | calls + 1, type, base, lineage => do
    let e ← MonadExcept.ofExcept ((schema.entity type).mapError .mapping)
    nestedThrough (schema.declaredNested limit calls) limit base lineage e.references

/-- The names of the types that a lineage has left. -/
def unvisited (schema : Schema) (lineage : List String) : Finset String :=
  (schema.types.map (·.name)).toFinset \ lineage.toFinset

section Nested

variable {below : String → Path → List String → Except ResolutionError (List DeclaredPath)}
  {nested : String → Path → List String → ExceptT ResolutionError Option (List DeclaredPath)}
  {type target : String} {base : Path} {lineage : List String} {room calls : Nat}

theorem card_unvisited_cons (htarget : ∃ e, schema.entity? target = some e) (hnew : target ∉ lineage) :
    (schema.unvisited (target :: lineage)).card < (schema.unvisited lineage).card := by
  have hcons : schema.unvisited (target :: lineage) = (schema.unvisited lineage).erase target := by
    ext name
    simp only [unvisited, List.toFinset_cons, Finset.mem_sdiff, Finset.mem_insert, Finset.mem_erase]
    tauto
  rw [hcons]
  apply Finset.card_erase_lt_of_mem
  obtain ⟨e, he⟩ := htarget
  have hname : e.name = target := by simpa using List.find?_some he
  have hmem : target ∈ schema.types.map (·.name) := hname ▸ List.mem_map_of_mem (List.mem_of_find?_eq_some he)
  simpa [unvisited, hnew] using hmem

theorem nestedThrough_of_length {rs : List Reference} (hlength : base.length = limit) :
    nestedThrough nested limit base lineage rs = MonadExcept.ofExcept (match rs with
      | [] => return []
      | r :: _ => throw (.depthExceeded (base.child r.property.name) limit)) := by
  cases rs with
  | nil => rfl
  | cons r rest =>
    have hlt : limit < (base.child r.property.name).length := by
      rw [Path.length_child]
      omega
    rw [nestedThrough]
    simp only [if_pos hlt]
    rfl

theorem nestedThrough_eq {rs : List Reference} (hroom : base.length + (room + 1) = limit)
    (hbelow : ∀ r ∈ rs, r.target ∉ lineage → nested r.target (base.child r.property.name) (r.target :: lineage) =
      MonadExcept.ofExcept (below r.target (base.child r.property.name) (r.target :: lineage))) :
    nestedThrough nested limit base lineage rs = MonadExcept.ofExcept (declaredThrough below base lineage rs) := by
  induction rs with
  | nil => rfl
  | cons r rest ih =>
    have hrest := ih fun s hs => hbelow s (List.mem_cons_of_mem _ hs)
    have hle : ¬ limit < (base.child r.property.name).length := by
      rw [Path.length_child]
      omega
    rw [nestedThrough, declaredThrough]
    by_cases hmem : r.target ∈ lineage
    · simp only [if_neg hle, if_pos hmem]
      rfl
    · simp only [if_neg hle, if_neg hmem, hbelow r List.mem_cons_self hmem, hrest]
      cases below r.target (base.child r.property.name) (r.target :: lineage) with
      | error _ => rfl
      | ok inner => cases declaredThrough below base lineage rest <;> rfl

theorem declaredNested_eq (hroom : base.length + room = limit) (hcalls : 0 < calls)
    (hleft : (∃ e, schema.entity? type = some e) → (schema.unvisited lineage).card + 1 < calls) :
    schema.declaredNested limit calls type base lineage =
      MonadExcept.ofExcept (schema.declaredBelow limit room type base lineage) := by
  induction calls generalizing type base lineage room with
  | zero => omega
  | succ calls ih =>
    cases he : (schema.entity type).mapError ResolutionError.mapping with
    | error _ =>
      cases room <;>
      · rw [declaredNested, declaredBelow, he]
        rfl
    | ok e =>
      cases room with
      | zero =>
        rw [declaredNested, declaredBelow, he]
        exact nestedThrough_of_length hroom
      | succ room =>
        have hleft := hleft ⟨e, entity_mapError_eq_ok.1 he⟩
        have hthrough : nestedThrough (schema.declaredNested limit calls) limit base lineage e.references =
            MonadExcept.ofExcept (declaredThrough (schema.declaredBelow limit room) base lineage e.references) := by
          refine nestedThrough_eq hroom fun r _ hnew => ih ?_ ?_ fun htarget => ?_
          · rw [Path.length_child]
            omega
          · omega
          · have := card_unvisited_cons htarget hnew
            omega
        rw [declaredNested, declaredBelow, he]
        exact hthrough

/-- Nested in each other are never more calls than there are types, and one. -/
theorem declaredNested_declared (hcalls : schema.types.length < calls) :
    (schema.declaredNested limit calls type .root [type]).run = some (schema.declared limit type) := by
  have hnested : schema.declaredNested limit calls type .root [type] =
      MonadExcept.ofExcept (schema.declared limit type) := by
    refine declaredNested_eq (Nat.zero_add _) (by omega) fun htype => ?_
    have hcons := card_unvisited_cons htype (List.not_mem_nil)
    have hall : (schema.unvisited []).card ≤ schema.types.length := by
      rw [← List.length_map (f := (·.name))]
      simpa [unvisited] using List.toFinset_card_le (schema.types.map (·.name))
    omega
  rw [hnested]
  cases schema.declared limit type <;> rfl

end Nested

end Schema

namespace Plan

/-- **Deletes are planned exactly.** The recursion over the declarations needs no more calls in each other than there
are types, and one; the plan exists if and only if all types reached from that of the root are registered, none is
reached from itself, and no declared path is too long; it has one delete for each declared path, those of longer
paths before, and ends with the root. -/
theorem delete_exact (schema : Schema) (limit : Nat) (type : String) (id : Value) :
    (∀ calls, schema.types.length < calls →
      (schema.declaredNested limit calls type .root [type]).run = some (schema.declared limit type)) ∧
    ((∃ acts, delete schema limit type id = .ok acts) ↔
      (∀ target, ReflTransGen schema.Refers type target →
        (∃ e, schema.entity? target = some e) ∧ ¬ TransGen schema.Refers target target) ∧
      ∀ path target, schema.Declares type .root path target → path.length ≤ limit) ∧
    ∀ acts, delete schema limit type id = .ok acts → (∀ e ∈ schema.types, (e.properties.map (·.name)).Nodup) →
      ∃ ps, acts = (ps ++ [(⟨.root, type⟩ : DeclaredPath)]).map (fun p => .delete p.target id p.path) ∧
        (∀ p, p ∈ ps ↔ schema.Declares type .root p.path p.target) ∧ (ps.map (·.path)).Nodup ∧
        (ps ++ [(⟨.root, type⟩ : DeclaredPath)]).Pairwise fun p q => ¬ p.path.segments <+: q.path.segments := by
  refine ⟨fun calls hcalls => ?_, ?_, fun acts hacts hnames => ?_⟩
  · exact Schema.declaredNested_declared hcalls
  · rw [← Schema.declared_ok_iff]
    simp only [delete_eq_ok]
    exact ⟨fun ⟨_, ps, hps, _⟩ => ⟨ps, hps⟩, fun ⟨ps, hps⟩ => ⟨_, ps, hps, rfl⟩⟩
  · obtain ⟨ps, hps, rfl⟩ := delete_eq_ok.1 hacts
    have hfirst := Schema.topFirst_declaredBelow hnames hps
    refine ⟨ps.reverse, rfl, fun p => ?_, ?_, List.pairwise_append.2 ⟨?_, List.pairwise_singleton _ _, ?_⟩⟩
    · rw [List.mem_reverse]
      exact Schema.mem_declared hps p
    · rw [List.map_reverse, List.nodup_reverse]
      exact hfirst.nodup
    · exact List.pairwise_reverse.2 hfirst
    · intro p hp q hq hle
      rw [List.mem_reverse] at hp
      rw [List.mem_singleton.1 hq] at hle
      have hlength := ((Schema.mem_declared hps p).1 hp).prefix_length.2
      rw [Path.length, Path.length, List.prefix_nil.1 hle] at hlength
      exact Nat.not_lt_zero _ hlength

end Plan

namespace Stock

/-- Pallets with crates, where both have labels. -/
def entities : Schema where
  types := [
    ⟨"Pallet", some "id", [⟨"crates", some "Crate", .set, none, false⟩, ⟨"labels", some "Label", .list, none, false⟩]⟩,
    ⟨"Crate", some "id", [⟨"labels", some "Label", .list, none, false⟩]⟩,
    ⟨"Label", some "id", []⟩]
  sound := by decide
  distinct := by decide

end Stock

namespace Plan

/-- Labels are deleted at both paths that lead to them. -/
theorem delete_exact_pallet :
    (∀ e ∈ Stock.entities.types, (e.properties.map (·.name)).Nodup) ∧
      delete Stock.entities 2 "Pallet" (.int 7) = .ok [
        .delete "Label" (.int 7) ⟨["labels"]⟩, .delete "Label" (.int 7) ⟨["crates", "labels"]⟩,
        .delete "Crate" (.int 7) ⟨["crates"]⟩, .delete "Pallet" (.int 7) .root] ∧
      ∀ path target, Stock.entities.Declares "Pallet" .root path target → path.length ≤ 2 := by
  have hplan : delete Stock.entities 2 "Pallet" (.int 7) = .ok [
      .delete "Label" (.int 7) ⟨["labels"]⟩, .delete "Label" (.int 7) ⟨["crates", "labels"]⟩,
      .delete "Crate" (.int 7) ⟨["crates"]⟩, .delete "Pallet" (.int 7) .root] := rfl
  have hexists := ((delete_exact Stock.entities 2 "Pallet" (.int 7)).2.1).1 ⟨_, hplan⟩
  exact ⟨by decide, hplan, hexists.2⟩

end Plan

end Aggregate
