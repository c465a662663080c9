import Mathlib
import Aggregate.Proofs.Declared
import Aggregate.Proofs.Grounded

/-!
# The way down

The paths that planning goes through come in pre-order: after a path those below it, before the next one beside it.

- `Path.Follows`: one step of such a walk; `Path.Downward`: a walk through paths below a given one;
- `Schema.downward_declaredBelow`: declared paths are listed so;
- `Plan.downward_insertsBelow`: inserts are planned so, and `Plan.length_path_le_of_insertsBelow`: how deep.
-/

namespace Aggregate

open ExceptT (Runs runs_pure)

variable {schema : Schema} {limit : Nat}

/-- The path of what an action is about. -/
def Action.path : Action → Path
  | insertRoot _ node _ | updateRoot _ node | insert _ node _ _ _ => node.path
  | delete _ _ path => path

/-! ## Steps -/

namespace Path

variable {ps qs : List Path}

/-- After a path, a walk in pre-order comes to a path one name longer than that or than a beginning of it, or starts
again at the root. -/
def Follows (p q : Path) : Prop :=
  q = .root ∨ ∃ (up : Path) (name : String), up.segments <+: p.segments ∧ q = up.child name

theorem Follows.of_longer {p p' q : Path} (hp : p.segments <+: p'.segments) (h : Follows p q) : Follows p' q := by
  rcases h with rfl | ⟨up, name, hup, rfl⟩
  · exact .inl rfl
  · exact .inr ⟨up, name, hup.trans hp, rfl⟩

/-- A walk in pre-order through paths below a given one. -/
structure Downward (base : Path) (ps : List Path) : Prop where
  chain : (base :: ps).IsChain Follows
  longer : ∀ p ∈ ps, base.segments <+: p.segments

theorem Downward.nil (base : Path) : Downward base [] := ⟨.singleton base, List.forall_mem_nil _⟩

theorem Downward.cons {base : Path} {name : String} (h : Downward (base.child name) ps) :
    Downward base (base.child name :: ps) := by
  have hchild : base.segments <+: (base.child name).segments := List.prefix_append ..
  exact ⟨.cons_cons (.inr ⟨base, name, List.prefix_rfl, rfl⟩) h.chain,
    List.forall_mem_cons.2 ⟨hchild, fun p hp => hchild.trans (h.longer p hp)⟩⟩

theorem Downward.append {base : Path} (hp : Downward base ps) (hq : Downward base qs) : Downward base (ps ++ qs) := by
  refine ⟨?_, List.forall_mem_append.2 ⟨hp.longer, hq.longer⟩⟩
  obtain ⟨hfirst, hchain⟩ := List.isChain_cons.1 hq.chain
  -- the last path so far is at least as long as the one to go on from
  refine hp.chain.append hchain fun last hlast q hq => (hfirst q hq).of_longer ?_
  rcases List.mem_cons.1 (List.mem_of_getLast? hlast) with rfl | hmem
  · exact List.prefix_rfl
  · exact hp.longer last hmem

end Path

/-! ## Declared paths -/

namespace Schema

variable {below : String → Path → List String → Except ResolutionError (List DeclaredPath)} {base : Path}
  {lineage : List String} {ps : List DeclaredPath} {type : String}

theorem downward_declaredThrough
    (hbelow : ∀ {type base lineage ps}, below type base lineage = .ok ps → Path.Downward base (ps.map (·.path)))
    {rs : List Reference} (h : declaredThrough below base lineage rs = .ok ps) :
    Path.Downward base (ps.map (·.path)) := by
  induction rs generalizing ps with
  | nil => cases h; exact .nil base
  | cons r rest ih =>
    obtain ⟨-, inner, further, hinner, hfurther, rfl⟩ := declaredThrough_cons.1 h
    rw [List.map_append]
    exact (Path.Downward.cons (hbelow hinner)).append (ih hfurther)

/-- Declared paths are listed in pre-order. -/
theorem downward_declaredBelow {room : Nat} (h : schema.declaredBelow limit room type base lineage = .ok ps) :
    Path.Downward base (ps.map (·.path)) := by
  induction room generalizing type base lineage ps with
  | zero =>
    obtain ⟨e, -, -, rfl⟩ := declaredBelow_zero.1 h
    exact .nil base
  | succ room ih =>
    obtain ⟨e, -, h⟩ := declaredBelow_succ.1 h
    exact downward_declaredThrough ih h

end Schema

/-! ## Inserts -/

/-- What an entity holds lies one name further. -/
theorem Edit.exists_path_of_mem_children {node : Address} {nodes : List Address} {d d' : Draft} (hn : node.Plain)
    (h : (children schema node).Runs d nodes d') :
    ∀ child ∈ nodes, child.Plain ∧ ∃ name, child.path = node.path.child name := by
  obtain ⟨v, -, hv, -⟩ := runs_children.1 h
  obtain ⟨e, -, halong⟩ := exists_of_mem_children hn h hv
  intro child hchild
  obtain ⟨r, -, place, hplace, rfl⟩ := halong child hchild
  exact ⟨⟨hn, hplace⟩, r.property.name, rfl⟩

namespace Plan

variable {below : Address → (holder next : Nat) → Edit ChangeError (List Action)} {d d' : Draft} {acts : List Action}
  {nodes : List Address} {node : Address} {holder next : Nat}

theorem downward_insertsAt {base : Path}
    (hnodes : ∀ node ∈ nodes, (∃ name, node.path = base.child name) ∧ ∀ {holder next d acts d'},
      (below node holder next).Runs d acts d' → Path.Downward node.path (acts.map Action.path))
    (h : (insertsAt schema below holder nodes next).Runs d acts d') : Path.Downward base (acts.map Action.path) := by
  induction nodes generalizing d next acts with
  | nil =>
    obtain ⟨rfl, rfl⟩ := runs_pure.1 h
    exact .nil base
  | cons node rest ih =>
    obtain ⟨v, type, inner, d₁, further, -, -, hinner, hfurther, rfl⟩ := runs_insertsAt_cons.1 h
    obtain ⟨⟨⟨name, hname⟩, hnode⟩, hrest⟩ := List.forall_mem_cons.1 hnodes
    have hdown := hnode hinner
    rw [hname] at hdown
    rw [List.map_append, List.map_cons, Action.path, hname]
    exact hdown.cons.append (ih hrest hfurther)

/-- Inserts are planned in pre-order. -/
theorem downward_insertsBelow {room : Nat} (hn : node.Plain)
    (h : (insertsBelow schema limit room node holder next).Runs d acts d') :
    Path.Downward node.path (acts.map Action.path) := by
  induction room generalizing node holder next d acts d' with
  | zero =>
    obtain ⟨-, rfl⟩ := runs_insertsBelow_zero.1 h
    exact .nil node.path
  | succ room ih =>
    obtain ⟨nodes, d₁, hnodes, h⟩ := runs_insertsBelow_succ.1 h
    refine downward_insertsAt (fun child hmem => ?_) h
    obtain ⟨hplain, hchild⟩ := Edit.exists_path_of_mem_children hn hnodes child hmem
    exact ⟨hchild, ih hplain⟩

theorem length_path_le_of_insertsAt {deepest : Nat}
    (hnodes : ∀ node ∈ nodes, node.path.length ≤ deepest ∧ ∀ {holder next d acts d'},
      (below node holder next).Runs d acts d' → ∀ a ∈ acts, a.kind = .insert ∧ a.path.length ≤ deepest)
    (h : (insertsAt schema below holder nodes next).Runs d acts d') :
    ∀ a ∈ acts, a.kind = .insert ∧ a.path.length ≤ deepest := by
  induction nodes generalizing d next acts with
  | nil =>
    obtain ⟨rfl, rfl⟩ := runs_pure.1 h
    exact List.forall_mem_nil _
  | cons node rest ih =>
    obtain ⟨v, type, inner, d₁, further, -, -, hinner, hfurther, rfl⟩ := runs_insertsAt_cons.1 h
    rw [List.forall_mem_cons] at hnodes
    exact List.forall_mem_append.2
      ⟨List.forall_mem_cons.2 ⟨⟨rfl, hnodes.1.1⟩, hnodes.1.2 hinner⟩, ih hnodes.2 hfurther⟩

/-- Inserts lie no deeper than there is room. -/
theorem length_path_le_of_insertsBelow {room deepest : Nat} (hn : node.Plain) (hpath : node.path.length + room = deepest)
    (h : (insertsBelow schema limit room node holder next).Runs d acts d') :
    ∀ a ∈ acts, a.kind = .insert ∧ a.path.length ≤ deepest := by
  induction room generalizing node holder next d acts d' with
  | zero =>
    obtain ⟨-, rfl⟩ := runs_insertsBelow_zero.1 h
    exact List.forall_mem_nil _
  | succ room ih =>
    obtain ⟨nodes, d₁, hnodes, h⟩ := runs_insertsBelow_succ.1 h
    refine length_path_le_of_insertsAt (fun child hmem => ?_) h
    obtain ⟨hplain, name, hchild⟩ := Edit.exists_path_of_mem_children hn hnodes child hmem
    have hlength : child.path.length = node.path.length + 1 := by rw [hchild, Path.length_child]
    exact ⟨by omega, ih hplain (by omega)⟩

end Plan

end Aggregate
