import Mathlib
import Aggregate.ChangeSet.Basic
import Aggregate.Proofs.Downward

/-!
# Limits

What the limit on the nesting of aggregates does: nothing, as long as nothing is nested deeper, and else it stops the
planning at the first path that is one name too long.

- `Plan.walked`: the paths that planning meets, in pre-order;
- `Path.guard`: stops at the first path that is one name too long;
- `Schema.declared_guarded`: a smaller limit is such a stop for the list of declared paths, and
  `Plan.insertsBelow_guarded` says the same of the walk through an aggregate;
- `ChangeSet.guards_of_le`: so it is for plans that insert, update, save and delete.
-/

namespace Aggregate

open ExceptT (Runs runs_bind runs_pure runs_get)
open Edit (runs_ofExcept)

variable {schema : Schema} {m n limit : Nat}

/-! ## Paths on the way -/

/-- The paths that planning meets, in order: first the declared ones, each before those below it, which are deleted
the other way round, then those of the root and of the entities below it. -/
def Plan.walked (actions : List Action) : List Path :=
  ((actions.filter (·.kind = .delete)).map Action.path).reverse ++
    (actions.filter (·.kind ≠ .delete)).map Action.path

/-- Stops at the first path that is one name too long. -/
def Path.guard (m : Nat) (paths : List Path) : Except ResolutionError Unit :=
  match paths.find? (·.length = m + 1) with
  | some p => .error (.depthExceeded p m)
  | none => .ok ()

namespace Path

variable {p : Path} {ps qs : List Path}

theorem guard_append : guard m (ps ++ qs) = guard m ps >>= fun _ => guard m qs := by
  unfold guard
  rw [List.find?_append]
  cases ps.find? (·.length = m + 1) <;> rfl

theorem guard_cons_of_le (h : p.length ≤ m) : guard m (p :: ps) = guard m ps := by
  unfold guard
  rw [List.find?_cons_of_neg]
  simp
  omega

theorem guard_cons_of_eq (h : p.length = m + 1) : guard m (p :: ps) = .error (.depthExceeded p m) := by
  unfold guard
  rw [List.find?_cons_of_pos (by simpa using h)]

theorem guard_eq_ok (h : ∀ p ∈ ps, p.length ≤ m) : guard m ps = .ok () := by
  induction ps with
  | nil => rfl
  | cons p ps ih =>
    rw [List.forall_mem_cons] at h
    rw [guard_cons_of_le h.1, ih h.2]

end Path

/-! ## Declared paths -/

namespace Schema

variable {below below' : String → Path → List String → Except ResolutionError (List DeclaredPath)} {base : Path}
  {lineage : List String} {ps : List DeclaredPath} {type : String}

theorem declaredThrough_mono
    (hbelow : ∀ {type base lineage ps}, below type base lineage = .ok ps → below' type base lineage = .ok ps)
    {rs : List Reference} (h : declaredThrough below base lineage rs = .ok ps) :
    declaredThrough below' base lineage rs = .ok ps := by
  induction rs generalizing ps with
  | nil => exact h
  | cons r rest ih =>
    obtain ⟨hr, inner, further, hinner, hfurther, rfl⟩ := declaredThrough_cons.1 h
    exact declaredThrough_cons.2 ⟨hr, inner, further, hbelow hinner, ih hfurther, rfl⟩

/-- With more room, a list of declared paths stays the same. -/
theorem declaredBelow_mono {room more : Nat} (hroom : room ≤ more)
    (h : schema.declaredBelow m room type base lineage = .ok ps) :
    schema.declaredBelow n more type base lineage = .ok ps := by
  induction room generalizing more type base lineage ps with
  | zero =>
    obtain ⟨e, he, hrs, rfl⟩ := declaredBelow_zero.1 h
    cases more with
    | zero => exact declaredBelow_zero.2 ⟨e, he, hrs, rfl⟩
    | succ more => exact declaredBelow_succ.2 ⟨e, he, by rw [hrs]; rfl⟩
  | succ room ih =>
    obtain ⟨more, rfl⟩ := Nat.exists_eq_add_of_le' (Nat.zero_lt_of_lt hroom)
    obtain ⟨e, he, h⟩ := declaredBelow_succ.1 h
    exact declaredBelow_succ.2 ⟨e, he, declaredThrough_mono (fun h => ih (Nat.le_of_succ_le_succ hroom) h) h⟩

theorem declaredThrough_guarded (hbase : base.length < m)
    (hbelow : ∀ {type path lineage ps}, path.length = base.length + 1 → below type path lineage = .ok ps →
      below' type path lineage = (Path.guard m (ps.map (·.path))).map fun _ => ps)
    {rs : List Reference} (h : declaredThrough below base lineage rs = .ok ps) :
    declaredThrough below' base lineage rs = (Path.guard m (ps.map (·.path))).map fun _ => ps := by
  induction rs generalizing ps with
  | nil => cases h; rfl
  | cons r rest ih =>
    obtain ⟨hr, inner, further, hinner, hfurther, rfl⟩ := declaredThrough_cons.1 h
    have hlen : (base.child r.property.name).length = base.length + 1 := Path.length_child ..
    have hle : (base.child r.property.name).length ≤ m := by omega
    have hguard : Path.guard m ((⟨base.child r.property.name, r.target⟩ :: inner ++ further).map DeclaredPath.path) =
        Path.guard m (inner.map (·.path)) >>= fun _ => Path.guard m (further.map (·.path)) := by
      rw [List.map_append, List.map_cons, List.cons_append, Path.guard_cons_of_le hle, Path.guard_append]
    rw [declaredThrough_eq hr, hbelow hlen hinner, ih hfurther, hguard]
    cases Path.guard m (inner.map (·.path)) with
    | error e => rfl
    | ok _ => cases Path.guard m (further.map (·.path)) <;> rfl

/-- With less room, listing declared paths stops at the first one that is too long. -/
theorem declaredBelow_guarded {room more : Nat} (hroom : room ≤ more) (hbase : base.length + room = m)
    (h : schema.declaredBelow n more type base lineage = .ok ps) :
    schema.declaredBelow m room type base lineage = (Path.guard m (ps.map (·.path))).map fun _ => ps := by
  -- the limit and the room shrink together, so that no room is left just where the base is as long as the limit
  induction room generalizing more type base lineage ps with
  | zero =>
    cases more with
    | zero =>
      rw [Path.guard_eq_ok (List.forall_mem_map.2 fun p hp => ?_)]
      · exact declaredBelow_mono (Nat.le_refl _) h
      · exact hbase ▸ length_le_of_mem_declaredBelow h p hp
    | succ more =>
      obtain ⟨e, he, h⟩ := declaredBelow_succ.1 h
      cases hrs : e.references with
      | nil =>
        rw [hrs] at h
        cases h
        exact declaredBelow_zero.2 ⟨e, he, hrs, rfl⟩
      | cons r rest =>
        rw [hrs] at h
        obtain ⟨-, inner, further, -, -, rfl⟩ := declaredThrough_cons.1 h
        have hlen : (base.child r.property.name).length = m + 1 := by rw [Path.length_child]; omega
        have hguard : Path.guard m
            ((⟨base.child r.property.name, r.target⟩ :: inner ++ further).map DeclaredPath.path) =
              .error (.depthExceeded (base.child r.property.name) m) := Path.guard_cons_of_eq hlen
        rw [declaredBelow_zero_eq_error he hrs, hguard]
        rfl
  | succ room ih =>
    obtain ⟨more, rfl⟩ := Nat.exists_eq_add_of_le' (Nat.zero_lt_of_lt hroom)
    obtain ⟨e, he, h⟩ := declaredBelow_succ.1 h
    rw [declaredBelow, entity_mapError_eq_ok.2 he]
    refine declaredThrough_guarded (by omega) (fun {_ path _ _} hlen h => ?_) h
    exact ih (Nat.le_of_succ_le_succ hroom) (by omega) h

theorem declared_mono (hmn : m ≤ n) (h : schema.declared m type = .ok ps) : schema.declared n type = .ok ps :=
  declaredBelow_mono hmn h

theorem declared_guarded (hmn : m ≤ n) (h : schema.declared n type = .ok ps) :
    schema.declared m type = (Path.guard m (ps.map (·.path))).map fun _ => ps :=
  declaredBelow_guarded hmn (Nat.zero_add m) h

end Schema

/-! ## Guarded runs -/

/-- The edit runs from the draft `d` to the draft `d'` with an answer, unless a path on its way is one name too long:
it fails at the first such path. -/
structure Edit.Guarded {α : Type} (m : Nat) (paths : List Path) (e : Edit ChangeError α) (d : Draft) (a : α)
    (d' : Draft) : Prop where
  runs : Path.guard m paths = .ok () → e.Runs d a d'
  stops {x : ResolutionError} : Path.guard m paths = .error x → (e d).1 = .error (.resolution x)

namespace Edit.Guarded

variable {α β : Type} {e : Edit ChangeError α} {f : α → Edit ChangeError β} {d d₁ d' : Draft} {a : α} {b : β}
  {ps qs : List Path}

/-- What meets no path only has to run. -/
theorem of_runs (h : e.Runs d a d') : Guarded m [] e d a d' :=
  ⟨fun _ => h, fun hx => nomatch hx⟩

theorem bind (he : Guarded m ps e d a d₁) (hf : Guarded m qs (f a) d₁ b d') : Guarded m (ps ++ qs) (e >>= f) d b d' := by
  have hsplit : Path.guard m (ps ++ qs) = Path.guard m ps >>= fun _ => Path.guard m qs := Path.guard_append
  cases hps : Path.guard m ps with
  | error y =>
    rw [hps] at hsplit
    refine ⟨fun h => (nomatch hsplit.symm.trans h), fun h => ?_⟩
    cases hsplit.symm.trans h
    have herror := he.stops hps
    simp only [Bind.bind, ExceptT.bind, ExceptT.mk, StateT.bind]
    rcases hrun : e d with ⟨x | a, d₂⟩ <;> rw [hrun] at herror <;> cases herror
    rfl
  | ok u =>
    rw [hps] at hsplit
    obtain ⟨ha, rfl⟩ := he.runs hps
    refine ⟨fun h => runs_bind.2 ⟨a, _, ⟨ha, rfl⟩, hf.runs (hsplit.symm.trans h)⟩, fun h => ?_⟩
    have herror := hf.stops (hsplit.symm.trans h)
    simp only [Bind.bind, ExceptT.bind, ExceptT.mk, StateT.bind]
    rcases hrun : e d with ⟨x | a', d₂⟩ <;> rw [hrun] at ha herror <;> cases ha
    exact herror

/-- Something that meets no path comes first. -/
theorem after (he : e.Runs d a d₁) (hf : Guarded m qs (f a) d₁ b d') : Guarded m qs (e >>= f) d b d' :=
  bind (of_runs he) hf

/-- A path at which nothing stops does not count. -/
theorem cons {p : Path} (hp : p.length ≤ m) (h : Guarded m ps e d a d') : Guarded m (p :: ps) e d a d' :=
  ⟨fun hg => h.runs (Path.guard_cons_of_le hp ▸ hg), fun hg => h.stops (Path.guard_cons_of_le hp ▸ hg)⟩

/-- Failing at a path that is one name too long. -/
theorem throw {p : Path} (hp : p.length = m + 1) :
    Guarded m (p :: ps) (throw (.resolution (.depthExceeded p m)) : Edit ChangeError α) d a d' := by
  have hstop : Path.guard m (p :: ps) = .error (.depthExceeded p m) := Path.guard_cons_of_eq hp
  refine ⟨fun hg => (nomatch hstop.symm.trans hg), fun hg => ?_⟩
  cases hstop.symm.trans hg
  rfl

end Edit.Guarded

/-! ## The walk through an aggregate -/

namespace Plan

variable {below below' : Address → (holder next : Nat) → Edit ChangeError (List Action)} {d d' : Draft}
  {acts : List Action} {nodes : List Address} {node : Address} {holder next : Nat}

theorem insertsAt_mono
    (hbelow : ∀ {node holder next d acts d'}, (below node holder next).Runs d acts d' →
      (below' node holder next).Runs d acts d')
    (h : (insertsAt schema below holder nodes next).Runs d acts d') :
    (insertsAt schema below' holder nodes next).Runs d acts d' := by
  induction nodes generalizing d next acts with
  | nil => exact h
  | cons node rest ih =>
    obtain ⟨v, type, inner, d₁, further, hv, ht, hinner, hfurther, rfl⟩ := runs_insertsAt_cons.1 h
    exact runs_insertsAt_cons.2 ⟨v, type, inner, d₁, further, hv, ht, hbelow hinner, ih hfurther, rfl⟩

/-- With more room, the walk does the same. -/
theorem insertsBelow_mono {room more : Nat} (hroom : room ≤ more)
    (h : (insertsBelow schema m room node holder next).Runs d acts d') :
    (insertsBelow schema n more node holder next).Runs d acts d' := by
  induction room generalizing more node holder next d acts d' with
  | zero =>
    obtain ⟨hnone, rfl⟩ := runs_insertsBelow_zero.1 h
    cases more with
    | zero => exact runs_insertsBelow_zero.2 ⟨hnone, rfl⟩
    | succ more => exact runs_insertsBelow_succ.2 ⟨[], d', hnone, runs_pure.2 ⟨rfl, rfl⟩⟩
  | succ room ih =>
    obtain ⟨more, rfl⟩ := Nat.exists_eq_add_of_le' (Nat.zero_lt_of_lt hroom)
    obtain ⟨nodes, d₁, hnodes, h⟩ := runs_insertsBelow_succ.1 h
    exact runs_insertsBelow_succ.2 ⟨nodes, d₁, hnodes, insertsAt_mono (ih (Nat.le_of_succ_le_succ hroom)) h⟩

theorem insertsAt_guarded
    (hnodes : ∀ node ∈ nodes, node.path.length ≤ m ∧ ∀ {holder next d acts d'}, (below node holder next).Runs d acts d' →
      Edit.Guarded m (acts.map Action.path) (below' node holder next) d acts d')
    (h : (insertsAt schema below holder nodes next).Runs d acts d') :
    Edit.Guarded m (acts.map Action.path) (insertsAt schema below' holder nodes next) d acts d' := by
  induction nodes generalizing d next acts with
  | nil =>
    obtain ⟨rfl, rfl⟩ := runs_pure.1 h
    exact .of_runs h
  | cons node rest ih =>
    obtain ⟨v, type, inner, d₁, further, hv, ht, hinner, hfurther, rfl⟩ := runs_insertsAt_cons.1 h
    rw [List.forall_mem_cons] at hnodes
    obtain ⟨⟨hle, hnode⟩, hrest⟩ := hnodes
    have hvalue : ((Edit.value schema node).wrapError ChangeError.resolution).Runs d v d :=
      Edit.runs_wrapError.2 (Edit.runs_value.2 ⟨hv, rfl⟩)
    rw [List.map_append, List.map_cons, List.cons_append]
    refine .cons hle ?_
    rw [insertsAt]
    refine .after hvalue ?_
    simp only [ht]
    refine .bind (hnode hinner) ?_
    rw [← List.append_nil (further.map Action.path)]
    exact .bind (ih hrest hfurther) (.of_runs (runs_pure.2 ⟨rfl, rfl⟩))

/-- With less room, the walk stops at the first entity that is too deep. -/
theorem insertsBelow_guarded {room more : Nat} (hroom : room ≤ more) (hn : node.Plain)
    (hpath : node.path.length + room = m) (h : (insertsBelow schema n more node holder next).Runs d acts d') :
    Edit.Guarded m (acts.map Action.path) (insertsBelow schema m room node holder next) d acts d' := by
  induction room generalizing more node holder next d acts d' with
  | zero =>
    cases more with
    | zero =>
      obtain ⟨hnone, rfl⟩ := runs_insertsBelow_zero.1 h
      exact .of_runs (runs_insertsBelow_zero.2 ⟨hnone, rfl⟩)
    | succ more =>
      obtain ⟨nodes, d₁, hnodes, h⟩ := runs_insertsBelow_succ.1 h
      cases nodes with
      | nil =>
        obtain ⟨rfl, rfl⟩ := runs_pure.1 h
        exact .of_runs (runs_insertsBelow_zero.2 ⟨hnodes, rfl⟩)
      | cons child rest =>
        obtain ⟨-, name, hchild⟩ := Edit.exists_path_of_mem_children hn hnodes child List.mem_cons_self
        obtain ⟨v, type, inner, d₂, further, -, -, -, -, rfl⟩ := runs_insertsAt_cons.1 h
        rw [insertsBelow]
        -- the first child is the first action's entity, and already too deep
        have hdeep : child.path.length = m + 1 := by rw [hchild, Path.length_child]; omega
        exact .after (Edit.runs_wrapError.2 hnodes) (.throw hdeep)
  | succ room ih =>
    obtain ⟨more, rfl⟩ := Nat.exists_eq_add_of_le' (Nat.zero_lt_of_lt hroom)
    obtain ⟨nodes, d₁, hnodes, h⟩ := runs_insertsBelow_succ.1 h
    rw [insertsBelow]
    refine .after (Edit.runs_wrapError.2 hnodes) (insertsAt_guarded (fun child hmem => ?_) h)
    obtain ⟨hplain, name, hchild⟩ := Edit.exists_path_of_mem_children hn hnodes child hmem
    have hlength : child.path.length = node.path.length + 1 := by rw [hchild, Path.length_child]
    exact ⟨by omega, ih (Nat.le_of_succ_le_succ hroom) hplain (by omega)⟩

/-! ## Plans -/

/-- The paths on the way to deletes and actions that store entities. -/
theorem walked_append {deletes rest : List Action} (hdeletes : ∀ a ∈ deletes, a.kind = .delete)
    (hrest : ∀ a ∈ rest, a.kind ≠ .delete) :
    walked (deletes ++ rest) = (deletes.map Action.path).reverse ++ rest.map Action.path := by
  unfold walked
  rw [List.filter_append, List.filter_append, List.filter_eq_self.2 (by simpa using hdeletes),
    List.filter_eq_nil_iff.2 (by simpa using hrest), List.filter_eq_nil_iff.2 (by simpa using hdeletes),
    List.filter_eq_self.2 (by simpa using hrest), List.append_nil, List.nil_append]

/-- A plan that stores an aggregate meets the declared paths first, which it clears, then the root and what is below. -/
theorem Starts.walked_eq {root : Value} {type : String} {deletes : List Action} {head : Action}
    (h : Starts schema limit n root type deletes head) (hacts : ∀ a ∈ acts, a.kind = .insert) :
    walked (deletes ++ head :: acts) = (deletes.map Action.path).reverse ++ .root :: acts.map Action.path := by
  have hhead : head.kind ≠ .delete ∧ head.path = .root := by cases h <;> exact ⟨nofun, rfl⟩
  have hstores : ∀ a ∈ head :: acts, a.kind ≠ .delete :=
    List.forall_mem_cons.2 ⟨hhead.1, fun a ha => by rw [hacts a ha]; decide⟩
  rw [walked_append h.kind_deletes hstores, List.map_cons, hhead.2]

section Root

variable {origin : Nat} {type : String} {id : Value} {declared : List DeclaredPath}

/-- Deletes run the declared paths from the last one to the first. -/
theorem reverse_paths (declared : List DeclaredPath) (id : Value) :
    ((declared.reverse.map fun p => Action.delete p.target id p.path).map Action.path).reverse =
      declared.map (·.path) := by
  rw [List.map_map, ← List.map_reverse, List.reverse_reverse]
  rfl

theorem deletesBelow_guarded (hmn : m ≤ n) (h : schema.declared n type = .ok declared) :
    deletesBelow schema m type id = (Path.guard m (declared.map (·.path))).map fun _ =>
      declared.reverse.map fun p => .delete p.target id p.path := by
  rw [deletesBelow, Schema.declared_guarded hmn h]
  cases Path.guard m (declared.map (·.path)) <;> rfl

/-! ### Limits as guards -/

/-- Up to the limit `m`, which is no larger than `n`, planning does the same under both; under `m` it stops at the first
path that is too long. -/
structure Limited (m n : Nat) (plan : Nat → Edit ChangeError (List Action)) : Prop where
  walks {d d' : Draft} {acts : List Action} : (plan n).Runs d acts d' →
    (Path.root :: walked acts).IsChain Path.Follows
  mono {d d' : Draft} {acts : List Action} : (plan m).Runs d acts d' → (plan n).Runs d acts d'
  length_le {d d' : Draft} {acts : List Action} : (plan m).Runs d acts d' → ∀ p ∈ walked acts, p.length ≤ m
  guarded {d d' : Draft} {acts : List Action} : (plan n).Runs d acts d' →
    Edit.Guarded m (walked acts) (plan m) d acts d'

/-- The paths that a plan meets come in pre-order. -/
theorem isChain_walked {root : Value} {deletes : List Action} {head : Action}
    (h : Starts schema n origin root type deletes head)
    (hinserts : (insertsBelow schema n n (.root origin) holder next).Runs d acts d') :
    (Path.root :: walked (deletes ++ head :: acts)).IsChain Path.Follows := by
  have hplain : (Address.root origin).Plain := trivial
  have hdepths := length_path_le_of_insertsBelow hplain (Nat.zero_add n) hinserts
  have hdeletes : Path.Downward .root (deletes.map Action.path).reverse := by
    cases h with
    | insert _ => exact .nil .root
    | update _ _ hdeletes =>
      obtain ⟨declared, hdeclared, rfl⟩ := deletesBelow_eq_ok.1 hdeletes
      rw [reverse_paths]
      exact Schema.downward_declaredBelow hdeclared
  rw [h.walked_eq fun a ha => (hdepths a ha).1]
  refine hdeletes.chain.append (downward_insertsBelow hplain hinserts).chain fun _ _ q hq => ?_
  exact .inl (Option.mem_some.1 hq).symm

/-- What is below a root lies no deeper than the limit. -/
theorem length_walked_le {root : Value} {deletes : List Action} {head : Action}
    (h : Starts schema m origin root type deletes head)
    (hinserts : (insertsBelow schema m m (.root origin) holder next).Runs d acts d') :
    ∀ p ∈ walked (deletes ++ head :: acts), p.length ≤ m := by
  have hplain : (Address.root origin).Plain := trivial
  have hdepths := length_path_le_of_insertsBelow hplain (Nat.zero_add m) hinserts
  rw [h.walked_eq fun a ha => (hdepths a ha).1]
  refine List.forall_mem_append.2 ⟨?_, List.forall_mem_cons.2 ⟨Nat.zero_le m, List.forall_mem_map.2 fun a ha => (hdepths a ha).2⟩⟩
  cases h with
  | insert _ => exact List.forall_mem_nil _
  | update _ _ hdeletes =>
    obtain ⟨declared, hdeclared, rfl⟩ := deletesBelow_eq_ok.1 hdeletes
    rw [reverse_paths]
    exact List.forall_mem_map.2 (Schema.length_le_of_mem_declared hdeclared)

/-- The root and what is below it, after the deletes. -/
theorem guarded_of_insertsBelow {α : Type} {f : List Action → α} (hmn : m ≤ n)
    (hinserts : (insertsBelow schema n n (.root origin) holder next).Runs d acts d') :
    Edit.Guarded m (.root :: acts.map Action.path)
      (insertsBelow schema m m (.root origin) holder next >>= fun inserts => pure (f inserts)) d (f acts) d' := by
  have hplain : (Address.root origin).Plain := trivial
  refine .cons (Nat.zero_le m) ?_
  rw [← List.append_nil (acts.map Action.path)]
  exact .bind (insertsBelow_guarded hmn hplain (Nat.zero_add m) hinserts) (.of_runs (runs_pure.2 ⟨rfl, rfl⟩))

theorem limited_insert (hmn : m ≤ n) : Limited m n fun limit => insert schema limit origin where
  walks h := by
    obtain ⟨type, inserts, ht, rfl, hinserts⟩ := runs_insert.1 h
    exact isChain_walked (.insert ht) hinserts
  mono h := by
    obtain ⟨type, inserts, ht, rfl, hinserts⟩ := runs_insert.1 h
    exact runs_insert.2 ⟨type, inserts, ht, rfl, insertsBelow_mono hmn hinserts⟩
  length_le h := by
    obtain ⟨type, inserts, ht, rfl, hinserts⟩ := runs_insert.1 h
    exact length_walked_le (.insert ht) hinserts
  guarded {d d' acts} h := by
    obtain ⟨type, inserts, ht, rfl, hinserts⟩ := runs_insert.1 h
    have hplain : (Address.root origin).Plain := trivial
    have hdepths := length_path_le_of_insertsBelow hplain (Nat.zero_add n) hinserts
    have hstarts : Starts schema n origin d.root type [] (.insertRoot type (.root origin) none) := .insert ht
    rw [← List.nil_append (Action.insertRoot type (.root origin) none :: inserts),
      hstarts.walked_eq fun a ha => (hdepths a ha).1]
    exact .after (runs_get.2 ⟨rfl, rfl⟩) (.after (runs_ofExcept.2 ⟨rootType_eq_ok.2 ht, rfl⟩)
      (guarded_of_insertsBelow hmn hinserts))

theorem limited_update (hmn : m ≤ n) : Limited m n fun limit => update schema limit origin where
  walks h := by
    obtain ⟨type, id, deletes, inserts, ht, hid, hdeletes, rfl, hinserts⟩ := runs_update.1 h
    exact isChain_walked (.update ht hid hdeletes) hinserts
  mono h := by
    obtain ⟨type, id, deletes, inserts, ht, hid, hdeletes, rfl, hinserts⟩ := runs_update.1 h
    obtain ⟨declared, hdeclared, rfl⟩ := deletesBelow_eq_ok.1 hdeletes
    exact runs_update.2 ⟨type, id, _, inserts, ht, hid,
      deletesBelow_eq_ok.2 ⟨declared, Schema.declared_mono hmn hdeclared, rfl⟩, rfl, insertsBelow_mono hmn hinserts⟩
  length_le h := by
    obtain ⟨type, id, deletes, inserts, ht, hid, hdeletes, rfl, hinserts⟩ := runs_update.1 h
    exact length_walked_le (.update ht hid hdeletes) hinserts
  guarded {d d' acts} h := by
    obtain ⟨type, id, deletes, inserts, ht, hid, hdeletes, rfl, hinserts⟩ := runs_update.1 h
    have hplain : (Address.root origin).Plain := trivial
    have hdepths := length_path_le_of_insertsBelow hplain (Nat.zero_add n) hinserts
    have hstarts := Starts.update (n := origin) ht hid hdeletes
    obtain ⟨declared, hdeclared, rfl⟩ := deletesBelow_eq_ok.1 hdeletes
    have hbelow : Edit.Guarded m (declared.map (·.path))
        (Edit.ofExcept ChangeError.resolution (deletesBelow schema m type id)) d
        (declared.reverse.map fun p => .delete p.target id p.path) d := by
      rw [deletesBelow_guarded hmn hdeclared]
      refine ⟨fun hg => ?_, fun hg => ?_⟩ <;> rw [hg]
      · exact runs_ofExcept.2 ⟨rfl, rfl⟩
      · rfl
    rw [hstarts.walked_eq fun a ha => (hdepths a ha).1, reverse_paths]
    refine .after (runs_get.2 ⟨rfl, rfl⟩) (.after (runs_ofExcept.2 ⟨rootType_eq_ok.2 ht, rfl⟩) ?_)
    exact .after (runs_ofExcept.2 ⟨hid, rfl⟩) (.bind hbelow (guarded_of_insertsBelow hmn hinserts))

theorem limited_save (hmn : m ≤ n) : Limited m n fun limit => save schema limit origin where
  walks h := (runs_save.1 h).elim (fun h => (limited_insert hmn).walks h.2) fun h => (limited_update hmn).walks h.2
  mono h := runs_save.2 ((runs_save.1 h).imp (.imp_right (limited_insert hmn).mono) (.imp_right (limited_update hmn).mono))
  length_le h := (runs_save.1 h).elim (fun h => (limited_insert hmn).length_le h.2)
    fun h => (limited_update hmn).length_le h.2
  guarded h := by
    rcases runs_save.1 h with ⟨hnew, h⟩ | ⟨hnew, h⟩
    · exact .after (runs_get.2 ⟨rfl, rfl⟩) (.after (runs_ofExcept.2 ⟨hnew, rfl⟩) ((limited_insert hmn).guarded h))
    · exact .after (runs_get.2 ⟨rfl, rfl⟩) (.after (runs_ofExcept.2 ⟨hnew, rfl⟩) ((limited_update hmn).guarded h))

end Root

end Plan

/-! ## Change sets -/

namespace ChangeSet

/-- What a limit does to a way of planning, as seen from a larger one. -/
structure Guards (m n : Nat) (plan : Nat → Except ChangeError ChangeSet × Workspace) : Prop where
  /-- The paths that planning meets come in pre-order. -/
  walks {set : ChangeSet} {w' : Workspace} : plan n = (.ok set, w') →
    (Path.root :: Plan.walked set.actions).IsChain Path.Follows
  /-- What is planned under the smaller limit is planned under the larger one. -/
  grows {set : ChangeSet} {w' : Workspace} : plan m = (.ok set, w') → plan n = (.ok set, w')
  /-- What is planned under the larger limit is planned under the smaller one, if no path is longer than that. -/
  within {set : ChangeSet} {w' : Workspace} : plan n = (.ok set, w') →
    (∀ p ∈ Plan.walked set.actions, p.length ≤ m) → plan m = (.ok set, w')
  /-- Otherwise planning fails, at the first path that is one name longer than the smaller limit. -/
  beyond {set : ChangeSet} {w' : Workspace} : plan n = (.ok set, w') →
    (∃ p ∈ Plan.walked set.actions, m < p.length) →
      ∃ p, (Plan.walked set.actions).find? (·.length = m + 1) = some p ∧
        (plan m).1 = .error (.resolution (.depthExceeded p m))

variable {plan : Nat → Except ChangeError ChangeSet × Workspace}

theorem guards_of_guard
    (hwalks : ∀ {set w'}, plan n = (.ok set, w') → (Path.root :: Plan.walked set.actions).IsChain Path.Follows)
    (hmono : ∀ {set w'}, plan m = (.ok set, w') → plan n = (.ok set, w'))
    (hlength : ∀ {set w'}, plan m = (.ok set, w') → ∀ p ∈ Plan.walked set.actions, p.length ≤ m)
    (hruns : ∀ {set w'}, plan n = (.ok set, w') → Path.guard m (Plan.walked set.actions) = .ok () →
      plan m = (.ok set, w'))
    (hstops : ∀ {set w' x}, plan n = (.ok set, w') → Path.guard m (Plan.walked set.actions) = .error x →
      (plan m).1 = .error (.resolution x)) : Guards m n plan where
  walks := hwalks
  grows := hmono
  within h hle := hruns h (Path.guard_eq_ok hle)
  beyond {set w'} h := by
    rintro ⟨p, hp, hlong⟩
    cases hfind : (Plan.walked set.actions).find? (·.length = m + 1) with
    | some first => exact ⟨first, rfl, hstops h (by simp only [Path.guard, hfind])⟩
    | none =>
      have hm : plan m = (.ok set, w') := hruns h (by simp only [Path.guard, hfind])
      exact absurd (hlength hm p hp) (Nat.not_le_of_lt hlong)

/-- What is planned depends on how the planner runs on the root. -/
theorem planWith_congr {w : Workspace} {root : Value} {plan plan' : Nat → Edit ChangeError (List Action)}
    (h : plan w.roots.length ⟨root, w.writes⟩ = plan' w.roots.length ⟨root, w.writes⟩) :
    planWith w root plan = planWith w root plan' := by
  unfold planWith
  rw [Workspace.begin_eq, Workspace.begin_eq, h]

theorem guards_planWith {plan : Nat → Nat → Edit ChangeError (List Action)}
    (h : ∀ origin, Plan.Limited m n fun limit => plan limit origin) (w : Workspace) (root : Value) :
    Guards m n fun limit => planWith w root (plan limit) := by
  have hsame {k l : Nat} {set : ChangeSet} {w' : Workspace} (hset : planWith w root (plan k) = (.ok set, w'))
      (hruns : ∀ {d}, (plan k w.roots.length).Runs ⟨root, w.writes⟩ set.actions d →
        (plan l w.roots.length).Runs ⟨root, w.writes⟩ set.actions d) : planWith w root (plan l) = (.ok set, w') := by
    obtain ⟨acts, d, type, hk, -, rfl, -⟩ := runs_of_planWith hset
    rw [← hset]
    exact planWith_congr (Prod.ext ((hruns hk).1.trans hk.1.symm) ((hruns hk).2.trans hk.2.symm))
  refine guards_of_guard (fun hset => ?_) (fun hset => hsame hset (h _).mono) (fun hset => ?_)
    (fun hset hguard => hsame hset fun hn => ((h _).guarded hn).runs hguard) (fun hset hguard => ?_)
  · obtain ⟨acts, d, type, hn, -, rfl, -⟩ := runs_of_planWith hset
    exact (h _).walks hn
  · obtain ⟨acts, d, type, hm, -, rfl, -⟩ := runs_of_planWith hset
    exact (h _).length_le hm
  · obtain ⟨acts, d, type, hn, -, rfl, -⟩ := runs_of_planWith hset
    have hstop := ((h _).guarded hn).stops hguard
    simp only [planWith, Workspace.begin_eq, hstop]
    rfl

theorem walked_delete (declared : List DeclaredPath) (type : String) (id : Value) :
    Plan.walked ((declared.reverse ++ [(⟨.root, type⟩ : DeclaredPath)]).map fun p => .delete p.target id p.path) =
      .root :: declared.map (·.path) := by
  have hdeletes : ∀ a ∈ (declared.reverse ++ [(⟨.root, type⟩ : DeclaredPath)]).map
      fun p => Action.delete p.target id p.path, a.kind = .delete := List.forall_mem_map.2 fun _ _ => rfl
  rw [← List.append_nil (List.map ..), Plan.walked_append hdeletes (List.forall_mem_nil _), ← List.reverse_cons,
    Plan.reverse_paths, List.map_nil, List.append_nil]
  rfl

theorem guards_planDelete (hmn : m ≤ n) (w : Workspace) (type : String) (id : Value) (entity : Option Value) :
    Guards m n fun limit => (planDelete limit schema type id entity, w) := by
  refine guards_of_guard (fun h => ?_) (fun h => ?_) (fun h => ?_) (fun h hguard => ?_) (fun h hguard => ?_) <;>
    obtain ⟨hset, rfl⟩ := Prod.mk.inj h <;> obtain ⟨declared, hdeclared, rfl⟩ := planDelete_eq_ok.1 hset
  · rw [walked_delete]
    exact .cons_cons (.inl rfl) (Schema.downward_declaredBelow hdeclared).chain
  · rw [planDelete_eq_ok.2 ⟨declared, Schema.declared_mono hmn hdeclared, rfl⟩]
  · rw [walked_delete]
    exact List.forall_mem_cons.2 ⟨Nat.zero_le m, List.forall_mem_map.2 (Schema.length_le_of_mem_declared hdeclared)⟩
  · rw [walked_delete, Path.guard_cons_of_le (Nat.zero_le m)] at hguard
    have hdeclared' := Schema.declared_guarded hmn hdeclared
    rw [hguard] at hdeclared'
    rw [planDelete_eq_ok.2 ⟨declared, hdeclared', rfl⟩]
  · rw [walked_delete, Path.guard_cons_of_le (Nat.zero_le m)] at hguard
    have hdeclared' := Schema.declared_guarded hmn hdeclared
    rw [hguard] at hdeclared'
    simp only [planDelete, Plan.delete, Plan.deletesBelow, hdeclared']
    rfl

/-- The limit on the depth is only a guard. Under two limits aggregates are planned alike, as long as no path that
planning meets is longer than the smaller one; otherwise planning under the smaller one fails, and names the first path
that is one name longer. -/
theorem guards_of_le (m n : Nat) (hmn : m ≤ n) (w : Workspace) (root : Value) (schema : Schema) (type : String)
    (id : Value) (entity : Option Value) :
    Guards m n (fun limit => planInsert limit w root) ∧ Guards m n (fun limit => planUpdate limit w root) ∧
      Guards m n (fun limit => planSave limit w root) ∧
      Guards m n fun limit => (planDelete limit schema type id entity, w) :=
  ⟨guards_planWith (fun _ => Plan.limited_insert hmn) w root, guards_planWith (fun _ => Plan.limited_update hmn) w root,
    guards_planWith (fun _ => Plan.limited_save hmn) w root, guards_planDelete hmn w type id entity⟩

end ChangeSet

/-! ## A library of atlases -/

namespace Atlas

/-- Atlases of maps, which show cities. -/
def entities : Schema where
  types := [
    ⟨"Atlas", some "id", [⟨"maps", some "Map", .list, none, false⟩]⟩,
    ⟨"Map", some "id", [⟨"cities", some "City", .list, none, false⟩]⟩,
    ⟨"City", some "id", []⟩]
  sound := by decide
  distinct := by decide

/-- A stored atlas with a map that shows no city, and one that shows two. -/
def world : Value :=
  .entity "Atlas" [("id", .int 1), ("maps", .list [
    .entity "Map" [("cities", .list [])],
    .entity "Map" [("cities", .list [.entity "City" [], .entity "City" []])]])]

end Atlas

namespace ChangeSet

/-- Cities are nested two names deep. An update with room for one name stops at the declared path of cities, which comes
before all entities; an insert stops at the first city. -/
theorem guards_of_le_atlas :
    1 ≤ 2 ∧
      (∃ set w', planUpdate 2 (.empty Atlas.entities) Atlas.world = (.ok set, w') ∧
        Plan.walked set.actions = [⟨["maps"]⟩, ⟨["maps", "cities"]⟩, .root, ⟨["maps"]⟩, ⟨["maps"]⟩,
          ⟨["maps", "cities"]⟩, ⟨["maps", "cities"]⟩]) ∧
      (∃ set w', planInsert 2 (.empty Atlas.entities) Atlas.world = (.ok set, w') ∧
        Plan.walked set.actions = [.root, ⟨["maps"]⟩, ⟨["maps"]⟩, ⟨["maps", "cities"]⟩, ⟨["maps", "cities"]⟩]) ∧
      (planUpdate 1 (.empty Atlas.entities) Atlas.world).1 =
        .error (.resolution (.depthExceeded ⟨["maps", "cities"]⟩ 1)) ∧
      (planInsert 1 (.empty Atlas.entities) Atlas.world).1 =
        .error (.resolution (.depthExceeded ⟨["maps", "cities"]⟩ 1)) := by
  have hle : 1 ≤ 2 := by decide
  obtain ⟨hinsert, hupdate, -, -⟩ :=
    guards_of_le 1 2 hle (.empty Atlas.entities) Atlas.world Atlas.entities "Atlas" (.int 1) none
  have hdeep {paths : List Path} (h : ⟨["maps", "cities"]⟩ ∈ paths) : ∃ p ∈ paths, 1 < p.length := ⟨_, h, by decide⟩
  refine ⟨hle, ⟨_, _, rfl, rfl⟩, ⟨_, _, rfl, rfl⟩, ?_, ?_⟩
  · obtain ⟨p, hp, hstop⟩ := hupdate.beyond rfl (hdeep (by decide))
    cases hp
    exact hstop
  · obtain ⟨p, hp, hstop⟩ := hinsert.beyond rfl (hdeep (by decide))
    cases hp
    exact hstop

end ChangeSet

end Aggregate
