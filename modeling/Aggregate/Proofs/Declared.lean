import Mathlib
import Aggregate.Plan.Declared
import Aggregate.Proofs.Runs

/-!
# Declared paths

The list of declared paths against the declarations.

- `Schema.Declares`: a path along references, and the type of the entities there;
- `Schema.mem_declared`: the list has the declared paths, no more and no less;
- `Schema.length_le_of_mem_declared`: none of them is longer than the limit;
- `Schema.topDown_declared`: after each path come the paths declared below it, so that deletes at the first paths of the
  reversed list leave none below those deleted (`Schema.TopDown.closed`).
-/

namespace Aggregate

variable {schema : Schema}

theorem Path.isRoot_child (p : Path) (property : String) : (p.child property).isRoot = false := by
  simp [child, isRoot]

/-- A path that extends `base` along the references of a type, and the type of the entities there. -/
inductive Schema.Declares (schema : Schema) : (type : String) → (base : Path) → Path → String → Prop
  | here {type : String} {base : Path} {e : EntityType} {r : Reference} : schema.entity? type = some e →
      r ∈ e.references → Declares schema type base (base.child r.property.name) r.target
  | further {type : String} {base path : Path} {target : String} {e : EntityType} {r : Reference} :
      schema.entity? type = some e → r ∈ e.references →
      Declares schema r.target (base.child r.property.name) path target → Declares schema type base path target

namespace Schema

theorem declares_iff {type target : String} {base path : Path} :
    schema.Declares type base path target ↔ ∃ e, schema.entity? type = some e ∧ ∃ r ∈ e.references,
      path = base.child r.property.name ∧ target = r.target ∨
        schema.Declares r.target (base.child r.property.name) path target := by
  constructor
  · intro h
    cases h with
    | here he hr => exact ⟨_, he, _, hr, .inl ⟨rfl, rfl⟩⟩
    | further he hr h => exact ⟨_, he, _, hr, .inr h⟩
  · rintro ⟨e, he, r, hr, ⟨rfl, rfl⟩ | h⟩
    · exact .here he hr
    · exact .further he hr h

/-- A declared path goes on along the references of the type it leads to. -/
theorem Declares.child {type target : String} {base path : Path} {e : EntityType} {r : Reference}
    (h : schema.Declares type base path target) (he : schema.entity? target = some e) (hr : r ∈ e.references) :
    schema.Declares type base (path.child r.property.name) r.target := by
  induction h with
  | here hf hs => exact .further hf hs (.here he hr)
  | further hf hs _ ih => exact .further hf hs (ih he)

theorem Declares.isRoot_eq {type target : String} {base path : Path} (h : schema.Declares type base path target) :
    path.isRoot = false := by
  induction h with
  | here _ _ => exact Path.isRoot_child ..
  | further _ _ _ ih => exact ih

/-! ## The list of declared paths -/

theorem entity_mapError_eq_ok {type : String} {e : EntityType} :
    (schema.entity type).mapError ResolutionError.mapping = .ok e ↔ schema.entity? type = some e :=
  Except.mapError_eq_ok.trans entity_eq_ok

variable {limit : Nat} {below : String → Path → List String → Except ResolutionError (List DeclaredPath)}

/-- Through a reference to a type that is not on the way yet. -/
theorem declaredThrough_eq {base : Path} {lineage : List String} {r : Reference} (hr : r.target ∉ lineage)
    (rest : List Reference) : declaredThrough below base lineage (r :: rest) = do
      let inner ← below r.target (base.child r.property.name) (r.target :: lineage)
      let further ← declaredThrough below base lineage rest
      return ⟨base.child r.property.name, r.target⟩ :: inner ++ further := by
  simp only [declaredThrough, if_neg hr]

/-- Through some references lead the first one, what is declared below its type, and what leads through the others. -/
theorem declaredThrough_cons {base : Path} {lineage : List String} {r : Reference} {rest : List Reference}
    {ps : List DeclaredPath} :
    declaredThrough below base lineage (r :: rest) = .ok ps ↔ r.target ∉ lineage ∧
      ∃ inner further, below r.target (base.child r.property.name) (r.target :: lineage) = .ok inner ∧
        declaredThrough below base lineage rest = .ok further ∧
        ps = ⟨base.child r.property.name, r.target⟩ :: inner ++ further := by
  by_cases hr : r.target ∈ lineage
  · simp only [declaredThrough, hr, not_true_eq_false, false_and, iff_false]
    nofun
  · rw [declaredThrough_eq hr, and_iff_right hr]
    simp only [Except.bind_eq_ok, Except.pure_eq_ok, exists_and_left]

/-- With no room left, listing stops at the first reference of a type. -/
theorem declaredBelow_zero_eq_error {type : String} {base : Path} {lineage : List String} {e : EntityType}
    {r : Reference} {rest : List Reference} (he : schema.entity? type = some e) (hrs : e.references = r :: rest) :
    schema.declaredBelow limit 0 type base lineage =
      .error (.depthExceeded (base.child r.property.name) limit) := by
  rw [declaredBelow, entity_mapError_eq_ok.2 he]
  simp only [bind, Except.bind, hrs]
  rfl

/-- With no room left, only a type without references has its list. -/
theorem declaredBelow_zero {type : String} {base : Path} {lineage : List String} {ps : List DeclaredPath} :
    schema.declaredBelow limit 0 type base lineage = .ok ps ↔
      ∃ e, schema.entity? type = some e ∧ e.references = [] ∧ ps = [] := by
  rw [declaredBelow, Except.bind_eq_ok]
  refine exists_congr fun e => and_congr entity_mapError_eq_ok ?_
  cases e.references with
  | nil => simp only [Except.pure_eq_ok, true_and]
  | cons r rest => exact ⟨nofun, nofun⟩

/-- The declared paths below a type are those through its references. -/
theorem declaredBelow_succ {room : Nat} {type : String} {base : Path} {lineage : List String} {ps : List DeclaredPath} :
    schema.declaredBelow limit (room + 1) type base lineage = .ok ps ↔
      ∃ e, schema.entity? type = some e ∧
        declaredThrough (schema.declaredBelow limit room) base lineage e.references = .ok ps := by
  simp only [declaredBelow, Except.bind_eq_ok, entity_mapError_eq_ok]

/-- Through some references lead these themselves and what is declared below their types. -/
theorem mem_declaredThrough {base : Path} {lineage : List String} {rs : List Reference} {ps : List DeclaredPath}
    (hbelow : ∀ {type base lineage ps}, below type base lineage = .ok ps →
      ∀ p, p ∈ ps ↔ schema.Declares type base p.path p.target)
    (h : declaredThrough below base lineage rs = .ok ps) (p : DeclaredPath) :
    p ∈ ps ↔ ∃ r ∈ rs, p.path = base.child r.property.name ∧ p.target = r.target ∨
      schema.Declares r.target (base.child r.property.name) p.path p.target := by
  induction rs generalizing ps with
  | nil => cases h; simp
  | cons r rest ih =>
    obtain ⟨-, inner, further, hinner, hfurther, rfl⟩ := declaredThrough_cons.1 h
    obtain ⟨path, target⟩ := p
    simp [hbelow hinner, ih hfurther, or_assoc]

theorem mem_declaredBelow {room : Nat} {type : String} {base : Path} {lineage : List String} {ps : List DeclaredPath}
    (h : schema.declaredBelow limit room type base lineage = .ok ps) (p : DeclaredPath) :
    p ∈ ps ↔ schema.Declares type base p.path p.target := by
  induction room generalizing type base lineage ps p with
  | zero =>
    obtain ⟨e, he, hrs, rfl⟩ := declaredBelow_zero.1 h
    rw [declares_iff]
    simp [he, hrs]
  | succ room ih =>
    obtain ⟨e, he, h⟩ := declaredBelow_succ.1 h
    rw [mem_declaredThrough (fun h p => ih h p) h, declares_iff]
    simp [he]

/-- The list of declared paths below a type, if there is one, has them all. -/
theorem mem_declared {type : String} {ps : List DeclaredPath} (h : schema.declared limit type = .ok ps)
    (p : DeclaredPath) : p ∈ ps ↔ schema.Declares type .root p.path p.target :=
  mem_declaredBelow h p

/-! ## The length of declared paths -/

theorem length_le_of_mem_declaredThrough {room : Nat} {base : Path} {lineage : List String} {rs : List Reference}
    {ps : List DeclaredPath} (hbelow : ∀ {type base lineage ps}, below type base lineage = .ok ps →
      ∀ p ∈ ps, p.path.length ≤ base.length + room)
    (h : declaredThrough below base lineage rs = .ok ps) : ∀ p ∈ ps, p.path.length ≤ base.length + (room + 1) := by
  induction rs generalizing ps with
  | nil => cases h; simp
  | cons r rest ih =>
    obtain ⟨-, inner, further, hinner, hfurther, rfl⟩ := declaredThrough_cons.1 h
    refine List.forall_mem_append.2 ⟨List.forall_mem_cons.2 ⟨?_, fun p hp => ?_⟩, ih hfurther⟩
    · rw [Path.length_child]
      omega
    · have := hbelow hinner p hp
      rw [Path.length_child] at this
      omega

theorem length_le_of_mem_declaredBelow {room : Nat} {type : String} {base : Path} {lineage : List String}
    {ps : List DeclaredPath} (h : schema.declaredBelow limit room type base lineage = .ok ps) :
    ∀ p ∈ ps, p.path.length ≤ base.length + room := by
  induction room generalizing type base lineage ps with
  | zero =>
    obtain ⟨e, -, -, rfl⟩ := declaredBelow_zero.1 h
    exact List.forall_mem_nil _
  | succ room ih =>
    obtain ⟨e, -, h⟩ := declaredBelow_succ.1 h
    exact length_le_of_mem_declaredThrough ih h

/-- No path in the list of declared paths is longer than the limit. -/
theorem length_le_of_mem_declared {type : String} {ps : List DeclaredPath} (h : schema.declared limit type = .ok ps) :
    ∀ p ∈ ps, p.path.length ≤ limit := by
  simpa [Path.length, Path.root] using length_le_of_mem_declaredBelow h

/-! ## The order of declared paths -/

/-- After each path come the paths declared below it. -/
def TopDown (schema : Schema) : List DeclaredPath → Prop
  | [] => True
  | p :: rest =>
    (∀ path target, schema.Declares p.target p.path path target → ⟨path, target⟩ ∈ rest) ∧ TopDown schema rest

/-- With each path the list has the paths declared below it. -/
def Closed (schema : Schema) (ps : List DeclaredPath) : Prop :=
  ∀ p ∈ ps, ∀ path target, schema.Declares p.target p.path path target → ⟨path, target⟩ ∈ ps

namespace TopDown

variable {ps qs : List DeclaredPath}

theorem append (hp : schema.TopDown ps) (hq : schema.TopDown qs) : schema.TopDown (ps ++ qs) := by
  induction ps with
  | nil => exact hq
  | cons p rest ih => exact ⟨fun path target h => List.mem_append_left _ (hp.1 path target h), ih hp.2⟩

theorem of_append (h : schema.TopDown (ps ++ qs)) : schema.TopDown qs := by
  induction ps with
  | nil => exact h
  | cons p rest ih => exact ih h.2

theorem isClosed (h : schema.TopDown ps) : schema.Closed ps := by
  induction ps with
  | nil => nofun
  | cons p rest ih =>
    intro q hq path target hdeclares
    rcases List.mem_cons.1 hq with rfl | hq
    · exact List.mem_cons_of_mem _ (h.1 path target hdeclares)
    · exact List.mem_cons_of_mem _ (ih h.2 q hq path target hdeclares)

/-- From the last path on, a list from the top down has with each path those below it. -/
theorem closed (h : schema.TopDown ps) (hq : qs <+: ps.reverse) : schema.Closed qs := by
  obtain ⟨rest, hrest⟩ := hq
  have hps : ps = rest.reverse ++ qs.reverse := by rw [← List.reverse_append, hrest, List.reverse_reverse]
  have hclosed := (hps ▸ h).of_append.isClosed
  simpa only [Closed, List.mem_reverse] using hclosed

end TopDown

theorem topDown_declaredThrough {base : Path} {lineage : List String} {rs : List Reference} {ps : List DeclaredPath}
    (hbelow : ∀ {type base lineage ps}, below type base lineage = .ok ps → schema.TopDown ps ∧
      ∀ p, p ∈ ps ↔ schema.Declares type base p.path p.target)
    (h : declaredThrough below base lineage rs = .ok ps) : schema.TopDown ps := by
  induction rs generalizing ps with
  | nil => cases h; trivial
  | cons r rest ih =>
    obtain ⟨-, inner, further, hinner, hfurther, rfl⟩ := declaredThrough_cons.1 h
    obtain ⟨htop, hmem⟩ := hbelow hinner
    exact ⟨fun path target hd => List.mem_append_left _ ((hmem ⟨path, target⟩).2 hd), htop.append (ih hfurther)⟩

theorem topDown_declaredBelow {room : Nat} {type : String} {base : Path} {lineage : List String}
    {ps : List DeclaredPath} (h : schema.declaredBelow limit room type base lineage = .ok ps) : schema.TopDown ps := by
  induction room generalizing type base lineage ps with
  | zero =>
    obtain ⟨e, -, -, rfl⟩ := declaredBelow_zero.1 h
    trivial
  | succ room ih =>
    obtain ⟨e, -, h⟩ := declaredBelow_succ.1 h
    exact topDown_declaredThrough (fun h => ⟨ih h, mem_declaredBelow h⟩) h

/-- In the list of declared paths below a type, with the type itself before them, each path comes before those below. -/
theorem topDown_declared {type : String} {ps : List DeclaredPath} (h : schema.declared limit type = .ok ps) :
    schema.TopDown (⟨.root, type⟩ :: ps) :=
  ⟨fun path target hd => (mem_declared h ⟨path, target⟩).2 hd, topDown_declaredBelow h⟩

end Schema

end Aggregate
