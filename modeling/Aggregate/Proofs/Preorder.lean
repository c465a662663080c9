import Mathlib
import Aggregate.Proofs.Firm
import Aggregate.Proofs.Insertion

/-!
# The order of the inserts of a plan

Whatever happens to an aggregate while it is planned, the addresses that are planned for come in order: an entity after
the one that holds it and, in a set, after what lies below the elements at smaller positions.

- `Leads`: what a place lies behind is done;
- `Ordered`: inserts one after another, up to a place that comes twice, which a declaration with two properties of one
  name may cause;
- `Plan.ordered_of_insertsBelow`: the inserts of a plan.
-/

namespace Aggregate

open Value (Precedes)

/-! ## What lies before a place -/

/-- The entities above a place are done, and so are the elements at smaller positions in the sets on the way. -/
structure Leads (done : List (List Link)) (ls : List Link) : Prop where
  above : ∀ pre l rest, ls = pre ++ l :: rest → pre ∈ done
  smaller : ∀ pre l rest, ls = pre ++ l :: rest → ∀ i, l.strategy = .setPosition i → ∀ k < i,
    pre ++ [⟨l.property, .setPosition k⟩] ∈ done

namespace Leads

variable {done more : List (List Link)} {ls : List Link} {l : Link}

theorem nil (done : List (List Link)) : Leads done [] := ⟨by simp, by simp⟩

theorem mono (h : Leads done ls) (hsub : done ⊆ more) : Leads more ls :=
  ⟨fun pre l rest heq => hsub (h.above pre l rest heq), fun pre l rest heq i hi k hk =>
    hsub (h.smaller pre l rest heq i hi k hk)⟩

/-- One link further. -/
theorem concat (h : Leads done ls) (hls : ls ∈ done)
    (hl : ∀ i, l.strategy = .setPosition i → ∀ k < i, ls ++ [⟨l.property, .setPosition k⟩] ∈ done) :
    Leads done (ls ++ [l]) := by
  have hsplit {pre rest : List Link} {m : Link} (heq : ls ++ [l] = pre ++ m :: rest) :
      pre = ls ∧ m = l ∨ ∃ rest', ls = pre ++ m :: rest' := by
    rcases List.eq_nil_or_concat rest with rfl | ⟨rest', x, rfl⟩
    · obtain ⟨rfl, hm⟩ := List.append_inj' heq rfl
      exact .inl ⟨rfl, (List.cons.inj hm).1.symm⟩
    · refine .inr ⟨rest', ?_⟩
      have heq' : ls ++ [l] = (pre ++ m :: rest') ++ [x] := by simpa using heq
      exact (List.append_inj' heq' rfl).1
  refine ⟨fun pre m rest heq => ?_, fun pre m rest heq => ?_⟩
  · rcases hsplit heq with ⟨rfl, -⟩ | ⟨rest', heq⟩
    · exact hls
    · exact h.above pre m rest' heq
  · rcases hsplit heq with ⟨rfl, rfl⟩ | ⟨rest', heq⟩
    · exact hl
    · exact h.smaller pre m rest' heq

end Leads

namespace Value

variable {p ls rest : List Link} {l m : Link}

theorem precedes_nil (p : List Link) : Precedes p [] := by
  cases p <;> trivial

/-- What precedes a place precedes what lies below the place, unless it lies there itself. -/
theorem Precedes.append (h : Precedes p ls) (hbelow : ∀ m rest, p ≠ ls ++ m :: rest) (ms : List Link) :
    Precedes p (ls ++ ms) := by
  induction ls generalizing p with
  | nil =>
    cases p with
    | nil => cases ms <;> trivial
    | cons m rest => exact absurd rfl (hbelow m rest)
  | cons l ls ih =>
    cases p with
    | nil => trivial
    | cons m p =>
      refine ⟨fun hml => ih (h.1 hml) fun x rest heq => hbelow x rest ?_, h.2⟩
      rw [hml, heq]
      rfl

/-- What lies below a place precedes it. -/
theorem precedes_append_self (ls ms : List Link) : Precedes (ls ++ ms) ls := by
  induction ls with
  | nil => exact precedes_nil ms
  | cons l ls ih =>
    refine ⟨fun _ => ih, fun _ i k hi hk => ?_⟩
    rw [hi] at hk
    cases hk
    exact Nat.le_refl _

/-- What lies below an entity precedes a place next to it, as the links say by which both part. -/
theorem precedes_concat (ls : List Link) (h : m.property = l.property → ∀ i k, m.strategy = .setPosition i →
    l.strategy = .setPosition k → i ≤ k) (rest : List Link) : Precedes (ls ++ m :: rest) (ls ++ [l]) := by
  induction ls with
  | nil => exact ⟨fun _ => precedes_nil rest, h⟩
  | cons x ls ih =>
    refine ⟨fun _ => ih, fun _ i k hi hk => ?_⟩
    rw [hi] at hk
    cases hk
    exact Nat.le_refl _

end Value

/-! ## Inserts in order -/

variable {schema : Schema} {base : Nat}

/-- Inserts in order, after actions at the positions from `base` on for the addresses `before`. An address whose place has
come before ends the order. -/
inductive Ordered (base : Nat) : (before : List Address) → List Action → Prop
  | nil {before : List Address} : Ordered base before []
  | again {before : List Address} {type : String} {node parent : Address} {j : Nat} {rest : List Action} :
    before[j]? = some parent → node.parent? = some parent → node.links ∈ before.map Address.links →
      Ordered base before (.insert type node (some (base + j)) node.columns none :: rest)
  | cons {before : List Address} {type : String} {node parent : Address} {j : Nat} {rest : List Action} :
    before[j]? = some parent → node.parent? = some parent → Leads (before.map Address.links) node.links →
      (∀ p ∈ before, Precedes p.links node.links) → Ordered base (before ++ [node]) rest →
      Ordered base before (.insert type node (some (base + j)) node.columns none :: rest)

/-- What each of some addresses lies behind is among them. -/
def Founded (before : List Address) : Prop := ∀ p ∈ before, Leads (before.map Address.links) p.links

theorem Founded.concat {before : List Address} {node : Address} (h : Founded before)
    (hn : Leads (before.map Address.links) node.links) : Founded (before ++ [node]) := by
  have hsub : before.map Address.links ⊆ (before ++ [node]).map Address.links := by
    rw [List.map_append]
    exact List.subset_append_left _ _
  exact List.forall_mem_append.2 ⟨fun p hp => (h p hp).mono hsub, List.forall_mem_singleton.2 (hn.mono hsub)⟩

/-- The addresses of some actions. -/
def nodes (actions : List Action) : List Address := actions.filterMap (·.address?)

theorem Ordered.append {before : List Address} {as bs : List Action} (hfounded : Founded before)
    (ha : Ordered base before as) (hb : Founded (before ++ nodes as) → Ordered base (before ++ nodes as) bs) :
    Ordered base before (as ++ bs) := by
  induction ha with
  | nil => simpa [nodes] using hb (by simpa [nodes] using hfounded)
  | again hj hparent h => exact .again hj hparent h
  | cons hj hparent hleads hprecedes _ ih =>
    refine .cons hj hparent hleads hprecedes (ih (hfounded.concat hleads) ?_)
    simpa [nodes, Action.address?] using hb

/-- The first ones of some inserts in order are in order. -/
theorem Ordered.of_append {before : List Address} {as bs : List Action} (h : Ordered base before (as ++ bs)) :
    Ordered base before as := by
  induction as generalizing before with
  | nil => exact .nil
  | cons a as ih =>
    cases h with
    | again hj hparent h => exact .again hj hparent h
    | cons hj hparent hleads hprecedes hrest => exact .cons hj hparent hleads hprecedes (ih hrest)

/-! ## Addresses next to each other -/

/-- In a set, the elements at smaller positions are done and those at larger positions are not. -/
def Follows (done : List (List Link)) (ls : List Link) (l : Link) : Prop :=
  ∀ i, l.strategy = .setPosition i → (∀ k < i, ls ++ [⟨l.property, .setPosition k⟩] ∈ done) ∧
    ∀ k, ls ++ [⟨l.property, .setPosition k⟩] ∈ done → k ≤ i

/-- Links that lead on from a place follow one another, up to one that comes twice. -/
def Rising (ls : List Link) : (done : List (List Link)) → List Link → Prop
  | _, [] => True
  | done, l :: rest => ls ++ [l] ∈ done ∨ Follows done ls l ∧ Rising ls (done ++ [ls ++ [l]]) rest

section Rising

variable {ls : List Link} {done more : List (List Link)} {xs ys : List Link}

/-- This depends on places just below only. -/
theorem Rising.congr (h : Rising ls done xs) (hmore : ∀ l, ls ++ [l] ∈ more ↔ ls ++ [l] ∈ done) : Rising ls more xs := by
  induction xs generalizing done more with
  | nil => trivial
  | cons x rest ih =>
    rcases h with h | ⟨hfollows, hrest⟩
    · exact .inl ((hmore x).2 h)
    · refine .inr ⟨fun i hi => ?_, ih hrest fun l => ?_⟩
      · obtain ⟨hsmaller, hlarger⟩ := hfollows i hi
        exact ⟨fun k hk => (hmore _).2 (hsmaller k hk), fun k hk => hlarger k ((hmore _).1 hk)⟩
      · simp only [List.mem_append, hmore]

theorem Rising.append (hx : Rising ls done xs) (hy : Rising ls (done ++ xs.map fun l => ls ++ [l]) ys) :
    Rising ls done (xs ++ ys) := by
  induction xs generalizing done with
  | nil => simpa using hy
  | cons x rest ih =>
    rcases hx with h | ⟨hfollows, hrest⟩
    · exact .inl h
    · exact .inr ⟨hfollows, ih hrest (by simpa using hy)⟩

/-- Places that are in no set follow one another. -/
theorem rising_of_plain (h : ∀ l ∈ xs, ∀ i, l.strategy ≠ .setPosition i) : Rising ls done xs := by
  induction xs generalizing done with
  | nil => trivial
  | cons x rest ih =>
    rw [List.forall_mem_cons] at h
    exact .inr ⟨fun i hi => absurd hi (h.1 i), ih h.2⟩

/-- The elements of a set follow one another from one position on. -/
theorem rising_range' {property : String} (i n : Nat)
    (h : ∀ k, ls ++ [⟨property, .setPosition k⟩] ∈ done ↔ k < i) :
    Rising ls done ((List.range' i n).map fun k => ⟨property, .setPosition k⟩) := by
  induction n generalizing i done with
  | zero => trivial
  | succ n ih =>
    refine .inr ⟨?_, ih (i + 1) fun k => ?_⟩
    · intro j hj
      cases hj
      exact ⟨fun k hk => (h k).2 hk, fun k hk => Nat.le_of_lt ((h k).1 hk)⟩
    · have hsingle : ls ++ [⟨property, .setPosition k⟩] ∈ [ls ++ [⟨property, .setPosition i⟩]] ↔ k = i := by simp
      rw [List.mem_append, h k, hsingle]
      omega

end Rising

/-- If an element of a set is done, then the first one is. -/
def FirstDone (ls : List Link) (done : List (List Link)) : Prop :=
  ∀ property k, ls ++ [⟨property, .setPosition k⟩] ∈ done → ls ++ [⟨property, .setPosition 0⟩] ∈ done

/-- The places in which a property holds something are those of a set, or are in no set. -/
theorem Property.places_cases (p : Property) (c : Value) :
    (∃ n, (p.parts c).map (·.1) = (List.range' 0 n).map .setPosition) ∨
      ∀ place ∈ (p.parts c).map (·.1), ∀ i, place ≠ .setPosition i := by
  unfold parts
  split
  case h_4 ordering elements _ =>
    refine .inl ⟨elements.length, ?_⟩
    rw [← List.zipIdx_map_snd, List.map_map, List.map_map]
    rfl
  all_goals
    refine .inr fun place hplace i hi => ?_
    subst hi
    simp at hplace

section Firsts

variable {ls : List Link} {done : List (List Link)} {property : String} {places : List Strategy}

theorem rising_of_places
    (hplaces : (∃ n, places = (List.range' 0 n).map .setPosition) ∨ ∀ place ∈ places, ∀ i, place ≠ .setPosition i)
    (hfirst : FirstDone ls done) : Rising ls done (places.map fun place => ⟨property, place⟩) := by
  rcases hplaces with ⟨n, rfl⟩ | hplain
  · by_cases h : ls ++ [⟨property, .setPosition 0⟩] ∈ done
    · cases n with
      | zero => trivial
      | succ n => exact .inl h
    · rw [List.map_map]
      exact rising_range' 0 n fun k => ⟨fun hk => (h (hfirst property k hk)).elim, nofun⟩
  · refine rising_of_plain fun l hl => ?_
    obtain ⟨place, hplace, rfl⟩ := List.mem_map.1 hl
    exact hplain place hplace

theorem FirstDone.append
    (hplaces : (∃ n, places = (List.range' 0 n).map .setPosition) ∨ ∀ place ∈ places, ∀ i, place ≠ .setPosition i)
    (hfirst : FirstDone ls done) : FirstDone ls (done ++ places.map fun place => ls ++ [⟨property, place⟩]) := by
  intro name k hk
  rcases List.mem_append.1 hk with hk | hk
  · exact List.mem_append_left _ (hfirst name k hk)
  · obtain ⟨place, hplace, heq⟩ := List.mem_map.1 hk
    obtain ⟨-, hl⟩ := List.append_inj' heq rfl
    cases hl
    rcases hplaces with ⟨n, rfl⟩ | hplain
    · refine List.mem_append_right _ (List.mem_map.2 ⟨.setPosition 0, ?_, rfl⟩)
      obtain ⟨i, hi, -⟩ := List.mem_map.1 hplace
      exact List.mem_map.2 ⟨0, by simp at hi ⊢; omega, rfl⟩
    · exact absurd rfl (hplain _ hplace k)

end Firsts

/-! ## The walk -/

namespace Edit

open ExceptT (Runs runs_pure)

variable {node : Address} {d d' : Draft} {nodes : List Address}

/-- The link by which a value holds another one. -/
def linkOf (x : Relation × Strategy) : Link := ⟨x.1.property.name, x.2⟩

theorem exists_of_childrenAlong (hn : node.Plain) {owner : String} {rs : List Reference}
    (h : (childrenAlong schema node owner rs).Runs d nodes d') :
    ∃ xs : List (Relation × Strategy), nodes = xs.map (fun x => .child node x.1 x.2) ∧
      ∀ done, FirstDone node.links done → Rising node.links done (xs.map linkOf) := by
  induction rs generalizing d nodes with
  | nil =>
    obtain ⟨rfl, rfl⟩ := runs_pure.1 h
    exact ⟨[], rfl, fun _ _ => trivial⟩
  | cons r rest ih =>
    obtain ⟨here, d₁, further, hhere, hfurther, rfl⟩ := runs_childrenAlong_cons.1 h
    obtain ⟨holder, c, hv, hread⟩ := runs_childrenBy_read hhere
    obtain ⟨_, -, hruns⟩ := runs_childrenBy owner hn hv hread
    obtain ⟨-, rfl, rfl⟩ := (hruns _ _).1 hhere
    obtain ⟨xs, rfl, hrising⟩ := ih hfurther
    have hplaces := r.property.places_cases c
    refine ⟨(((r.property.parts c).map (·.1)).map fun place =>
      (⟨owner, r.property, node.path.child r.property.name⟩, place)) ++ xs, ?_, fun done hfirst => ?_⟩
    · simp [Function.comp_def]
    · rw [List.map_append, List.map_map]
      have hhere : Rising node.links done (((r.property.parts c).map (·.1)).map fun place => ⟨r.property.name, place⟩) :=
        rising_of_places hplaces hfirst
      refine hhere.append (hrising _ ?_)
      rw [List.map_map]
      exact hfirst.append hplaces

/-- The addresses of what an entity holds follow one another. -/
theorem exists_of_children (hn : node.Plain) (h : (children schema node).Runs d nodes d') :
    ∃ xs : List (Relation × Strategy), nodes = xs.map (fun x => .child node x.1 x.2) ∧
      ∀ done, FirstDone node.links done → Rising node.links done (xs.map linkOf) := by
  obtain ⟨v, e, -, -, h⟩ := runs_children.1 h
  exact exists_of_childrenAlong hn h

end Edit

/-! ## The inserts of a plan -/

namespace Plan

open ExceptT (runs_pure)

variable {limit j : Nat} {below : Address → (holder next : Nat) → Edit ChangeError (List Action)} {d d' : Draft}
  {acts : List Action} {before : List Address} {node : Address}

/-- The address is not that of a root and lies at some links or below. -/
def Within (ls : List Link) (node : Address) : Prop := node.Plain ∧ ls <+: node.links

theorem walk_within (ls : List Link) : Edit.Walk schema (fun _ => True) (Within ls) where
  plain hn := hn.1
  passes hn _ _ :=
    { settle := fun _ _ _ _ => trivial
      child := fun hpart => ⟨⟨hn.1, Property.plain_of_mem_parts hpart⟩, hn.2.trans (List.prefix_append _ _)⟩ }

/-- Planning may go on below an address that is among those so far. -/
structure Open (before : List Address) (j : Nat) (node : Address) : Prop where
  plain : node.Plain
  at_eq : before[j]? = some node
  founded : Founded before
  precedes : ∀ p ∈ before, Precedes p.links node.links

/-- Nothing below the address is among those so far. -/
def Untouched (before : List Address) (node : Address) : Prop := ∀ p ∈ before, ∀ m rest, p.links ≠ node.links ++ m :: rest

variable {relation : Relation} {place : Strategy}

/-- What leads to an entity that follows the others next to it. -/
theorem Open.leads (h : Open before j node)
    (hfollows : Follows (before.map Address.links) node.links ⟨relation.property.name, place⟩) :
    Leads (before.map Address.links) (Address.child node relation place).links := by
  have hmem : node ∈ before := List.mem_of_getElem? h.at_eq
  exact (h.founded node hmem).concat (List.mem_map_of_mem hmem) fun i hi => (hfollows i hi).1

theorem Open.precedes_child (h : Open before j node)
    (hfollows : Follows (before.map Address.links) node.links ⟨relation.property.name, place⟩) :
    ∀ p ∈ before, Precedes p.links (Address.child node relation place).links := by
  intro p hp
  by_cases hbelow : ∃ m rest, p.links = node.links ++ m :: rest
  · obtain ⟨m, rest, heq⟩ := hbelow
    -- the element of a set in which `p` lies is done itself
    have hm : node.links ++ [m] ∈ before.map Address.links := by
      cases rest with
      | nil => exact heq ▸ List.mem_map_of_mem hp
      | cons l rest => exact (h.founded p hp).above (node.links ++ [m]) l rest (by rw [heq]; simp)
    rw [heq, Address.links]
    refine Value.precedes_concat node.links (fun hproperty i k hi hk => (hfollows k hk).2 i ?_) rest
    rw [← hproperty, ← hi]
    exact hm
  · exact (h.precedes p hp).append (fun m rest heq => hbelow ⟨m, rest, heq⟩) _

/-- An address that leads on from an open one is open, once it is among those so far. -/
theorem Open.child (h : Open before j node) (hplace : place.Plain)
    (hfollows : Follows (before.map Address.links) node.links ⟨relation.property.name, place⟩) :
    Open (before ++ [.child node relation place]) before.length (.child node relation place) where
  plain := ⟨h.plain, hplace⟩
  at_eq := List.getElem?_concat_length ..
  founded := h.founded.concat (h.leads hfollows)
  precedes := by
    refine List.forall_mem_append.2 ⟨h.precedes_child hfollows, List.forall_mem_singleton.2 ?_⟩
    simpa using Value.precedes_append_self (Address.child node relation place).links []

theorem Open.untouched_child (h : Open before j node) {x : Address} (hx : x.links ∉ before.map Address.links) :
    Untouched (before ++ [x]) x := by
  refine List.forall_mem_append.2 ⟨fun p hp m rest heq => hx ((h.founded p hp).above _ _ _ heq), ?_⟩
  refine List.forall_mem_singleton.2 fun m rest heq => ?_
  have hlen := congrArg List.length heq
  simp at hlen

/-- An open address stays open after others below it. -/
theorem Open.append (h : Open before j node) {further : List Address} (hfounded : Founded (before ++ further))
    (hfurther : ∀ p ∈ further, node.links <+: p.links) : Open (before ++ further) j node where
  plain := h.plain
  at_eq := by
    obtain ⟨hlt, -⟩ := List.getElem?_eq_some_iff.1 h.at_eq
    rw [List.getElem?_append_left hlt, h.at_eq]
  founded := hfounded
  precedes := by
    refine List.forall_mem_append.2 ⟨h.precedes, fun p hp => ?_⟩
    obtain ⟨ms, heq⟩ := hfurther p hp
    exact heq ▸ Value.precedes_append_self node.links ms

/-- The addresses of what a walk draws. -/
theorem nodes_of_draws {P : Value → Prop} {N : Address → Prop} (h : ∀ a ∈ acts, Draws schema P N a) :
    (nodes acts).length = acts.length ∧ ∀ x ∈ nodes acts, N x := by
  induction acts with
  | nil => exact ⟨rfl, nofun⟩
  | cons a rest ih =>
    rw [List.forall_mem_cons] at h
    obtain ⟨⟨type, node, holder, v, x, rfl, hn, -⟩, hrest⟩ := h
    obtain ⟨hlen, hnodes⟩ := ih hrest
    exact ⟨congrArg (· + 1) hlen, List.forall_mem_cons.2 ⟨hn, hnodes⟩⟩

/-- The inserts at addresses that follow one another are in order, if those below each address are. -/
theorem ordered_of_insertsAt
    (hbelow : ∀ {x : Address} {before : List Address} {k : Nat} {d d' : Draft} {acts : List Action}, Open before k x →
      Untouched before x → (below x (base + k) (base + before.length)).Runs d acts d' → Ordered base before acts)
    (hkeeps : ∀ ls, Keeps schema (fun _ => True) (Within ls) below) (hopen : Open before j node)
    {xs : List (Relation × Strategy)} (hxs : ∀ x ∈ xs, x.2.Plain)
    (hrising : Rising node.links (before.map Address.links) (xs.map Edit.linkOf))
    (h : (insertsAt schema below (base + j) (xs.map fun x => .child node x.1 x.2) (base + before.length)).Runs d acts d') :
    Ordered base before acts := by
  induction xs generalizing before d acts with
  | nil =>
    obtain ⟨rfl, -⟩ := runs_pure.1 h
    exact .nil
  | cons x rest ih =>
    obtain ⟨relation, place⟩ := x
    rw [List.forall_mem_cons] at hxs
    obtain ⟨v, type, inner, d₁, further, -, -, hinner, hfurther, rfl⟩ := runs_insertsAt_cons.1 h
    by_cases hagain : (Address.child node relation place).links ∈ before.map Address.links
    · exact .again hopen.at_eq rfl hagain
    obtain ⟨hfollows, hrest⟩ := hrising.resolve_left hagain
    have hchild : Open (before ++ [.child node relation place]) before.length (.child node relation place) :=
      hopen.child hxs.1 hfollows
    rw [show base + before.length + 1 = base + (before ++ [Address.child node relation place]).length by simp; omega]
      at hinner
    have hordered := hbelow hchild (hopen.untouched_child hagain) hinner
    obtain ⟨hlen, hwithin⟩ := nodes_of_draws
      (hkeeps (Address.child node relation place).links _ _ _ _ _ _ ⟨hchild.plain, List.prefix_rfl⟩ hinner trivial).2
    refine .cons hopen.at_eq rfl (hopen.leads hfollows) (hopen.precedes_child hfollows) ?_
    refine hordered.append hchild.founded fun hfounded => ?_
    rw [show base + before.length + 1 + inner.length =
      base + (before ++ [Address.child node relation place] ++ nodes inner).length by simp [hlen]; omega] at hfurther
    have hfrom : ∀ p ∈ [Address.child node relation place] ++ nodes inner,
        (Address.child node relation place).links <+: p.links :=
      List.forall_mem_cons.2 ⟨List.prefix_rfl, fun p hp => (hwithin p hp).2⟩
    rw [List.append_assoc] at hfounded hfurther ⊢
    refine ih (hopen.append hfounded fun p hp => (List.prefix_append _ _).trans (hfrom p hp)) hxs.2 ?_ hfurther
    refine hrest.congr fun l => ?_
    rw [List.map_append, List.mem_append, List.mem_append, List.mem_singleton]
    refine or_congr_right ⟨fun hl => ?_, fun hl => ?_⟩
    · -- what lies below `x` is not next to `x`
      obtain ⟨p, hp, heq⟩ := List.mem_map.1 hl
      have hle := heq ▸ hfrom p hp
      exact (hle.eq_of_length (by simp [Address.links])).symm
    · exact hl ▸ List.mem_map_of_mem List.mem_cons_self

/-- The inserts below an open address are in order. -/
theorem ordered_of_insertsBelow {room : Nat} (hopen : Open before j node) (huntouched : Untouched before node)
    (h : (insertsBelow schema limit room node (base + j) (base + before.length)).Runs d acts d') :
    Ordered base before acts := by
  induction room generalizing node before j d d' acts with
  | zero =>
    obtain ⟨-, rfl⟩ := runs_insertsBelow_zero.1 h
    exact .nil
  | succ room ih =>
    obtain ⟨nodes, d₁, hnodes, h⟩ := runs_insertsBelow_succ.1 h
    obtain ⟨xs, rfl, hrising⟩ := Edit.exists_of_children hopen.plain hnodes
    have hwithin := (Edit.children_keeps (walk_within []) ⟨hopen.plain, List.nil_prefix⟩ hnodes trivial).2
    refine ordered_of_insertsAt ih (fun ls => insertsBelow_keeps (walk_within ls) room) hopen (fun x hx => ?_)
      (hrising _ fun property k hk => ?_) h
    · exact (hwithin _ (List.mem_map_of_mem hx)).1.1.2
    · obtain ⟨p, hp, heq⟩ := List.mem_map.1 hk
      exact absurd heq (huntouched p hp _ [])

/-- The inserts below the root are in order. -/
theorem ordered_of_root {n room : Nat}
    (h : (insertsBelow schema limit room (.root n) base (base + 1)).Runs d acts d') :
    Ordered base [.root n] acts := by
  have hopen : Open [.root n] 0 (.root n) :=
    ⟨trivial, rfl, List.forall_mem_singleton.2 (Leads.nil _), List.forall_mem_singleton.2 (Value.precedes_nil _)⟩
  exact ordered_of_insertsBelow hopen (List.forall_mem_singleton.2 fun m rest heq => (nomatch heq)) h

end Plan

end Aggregate
