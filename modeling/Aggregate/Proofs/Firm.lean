import Mathlib
import Aggregate.Proofs.Loss

/-!
# What sets keep in place

A set that gets another element keeps its elements up to that place, if these are all different.

- `ValueSet.ofList_append`: values that are all different keep their places in a set, whatever is inserted after them;
- `Strategy.Firm`, `Value.Firm`: no set drops an element up to the place that another value takes;
- `Value.at?_put_self`: the value is read there then;
- `Value.Untouched`: places that a value put elsewhere leaves alone, and what is read there (`Value.at?_put_of_untouched`).
-/

namespace Aggregate

/-! ## Places in sets -/

namespace ValueSet

/-- Values that are all different keep their places in a set, whatever is inserted after them. -/
theorem ofList_append {vs : List Value} (h : vs.Nodup) (ws : List Value) :
    ∃ new, (ofList .linked (vs ++ ws)).toValue = .set .linked (vs ++ new) := by
  obtain ⟨all, -, hall, -, heq⟩ := foldl_insert_linked vs []
  cases heq h
  obtain ⟨new, -, hnew, -⟩ := foldl_insert_linked ws vs
  refine ⟨new, ?_⟩
  rw [ofList, List.foldl_append, empty, hall, List.nil_append, hnew]
  rfl

end ValueSet

namespace Strategy

variable {s t : Strategy} {c c' w x y : Value}

/-- Whether the elements of a set are all different up to a place, with another value there. -/
def Firm : Strategy → Value → Value → Prop
  | setPosition position, .set _ elements, x => (elements.take position ++ [x]).Nodup
  | _, _, _ => True

theorem set_eq_take_append {position : Nat} {elements : List Value} (h : position < elements.length) (x : Value) :
    elements.set position x = elements.take position ++ [x] ++ elements.drop (position + 1) := by
  rw [List.set_eq_take_append_cons_drop, if_pos h, List.append_assoc]
  rfl

theorem Fits.firm (hw : s.part? c = some w) (h : s.Fits c x) : s.Firm c x := by
  cases holds_of_part? hw with
  | direct | mapKey _ | listIndex _ => trivial
  | setPosition hi =>
    obtain ⟨hlt, -⟩ := List.getElem?_eq_some_iff.1 hi
    rw [Fits, set_eq_take_append hlt] at h
    exact h.sublist (List.sublist_append_left _ _)

/-- A set with a new element keeps its elements up to there. -/
theorem put_setPosition {position : Nat} {ordering : SetOrdering} {elements : List Value} (h : position < elements.length)
    (hf : (setPosition position).Firm (.set ordering elements) x) :
    ∃ new, (setPosition position).put (.set ordering elements) x = .set .linked (elements.take position ++ [x] ++ new) := by
  rw [put, set_eq_take_append h]
  exact ValueSet.ofList_append hf _

/-- What was put in place is read there. -/
theorem part?_put_self (hw : s.part? c = some w) (hf : s.Firm c x) : s.part? (s.put c x) = some x := by
  cases holds_of_part? hw with
  | direct => rfl
  | mapKey _ => exact Keyed.lookup_insert_self ..
  | listIndex hi =>
    obtain ⟨hlt, -⟩ := List.getElem?_eq_some_iff.1 hi
    exact List.getElem?_set_self hlt
  | setPosition hi =>
    obtain ⟨hlt, -⟩ := List.getElem?_eq_some_iff.1 hi
    obtain ⟨new, hput⟩ := put_setPosition hlt hf
    rw [hput, part?, List.append_assoc, List.getElem?_append_right (by simp), List.length_take, Nat.min_eq_left hlt.le,
      Nat.sub_self]
    rfl

/-- What a container was rebuilt around is read in its place. -/
theorem part?_of_rebuild (hs : s.Plain) (h : s.rebuild c x = .ok c') (hf : s.Firm c x) : s.part? c' = some x := by
  cases s with
  | known _ => exact hs.elim
  | direct => cases h; rfl
  | mapKey key =>
    cases c with
    | map entries => cases h; exact Keyed.lookup_insert_self ..
    | _ => cases h
  | listIndex index =>
    cases c with
    | list items =>
      simp only [rebuild] at h
      split at h <;> cases h
      exact List.getElem?_set_self ‹_›
    | _ => cases h
  | setPosition position =>
    cases c with
    | set ordering elements =>
      simp only [rebuild] at h
      split at h <;> cases h
      exact part?_put_self (List.getElem?_eq_getElem ‹_›) hf
    | _ => cases h

/-- Entities at other places stay, but for those after the place in a set. -/
theorem part?_put_of_firm (hw : s.part? c = some w) (hn : w.isEntity = true) (hf : s.Firm c x) (hst : t ≠ s)
    (hle : ∀ i k, t = setPosition i → s = setPosition k → i ≤ k) (hy : t.part? c = some y) (hyn : y.isEntity = true) :
    t.part? (s.put c x) = some y := by
  cases holds_of_part? hw with
  | direct =>
    cases holds_of_part? hy with
    | direct => exact absurd rfl hst
    | _ => cases hn
  | mapKey _ =>
    cases holds_of_part? hy with
    | direct => cases hyn
    | mapKey hy => exact (Keyed.lookup_insert_of_ne (fun h => hst (congrArg mapKey h)) ..).trans hy
  | listIndex _ =>
    cases holds_of_part? hy with
    | direct => cases hyn
    | listIndex hy => exact (List.getElem?_set_ne fun h => hst (congrArg listIndex h.symm)).trans hy
  | @setPosition position _ _ elements hi =>
    cases holds_of_part? hy with
    | direct => cases hyn
    | @setPosition other _ _ _ hy =>
      have hlt : other < position :=
        Nat.lt_of_le_of_ne (hle other position rfl rfl) fun h => hst (congrArg setPosition h)
      obtain ⟨hpos, -⟩ := List.getElem?_eq_some_iff.1 hi
      obtain ⟨new, hput⟩ := put_setPosition hpos hf
      rw [hput, part?, List.append_assoc, List.getElem?_append_left (by rw [List.length_take]; omega),
        List.getElem?_take_of_lt hlt]
      exact hy

/-- Entities at other places stay where nothing is dropped. -/
theorem part?_put_of_fits (hw : s.part? c = some w) (hn : w.isEntity = true) (hf : s.Fits c x) (hst : t ≠ s)
    (hy : t.part? c = some y) (hyn : y.isEntity = true) : t.part? (s.put c x) = some y := by
  by_cases hset : ∃ position, s = setPosition position
  · obtain ⟨position, rfl⟩ := hset
    cases holds_of_part? hw with
    | @setPosition _ _ _ elements _ =>
      obtain ⟨es, -, -, hall, hes⟩ := ValueSet.ofList_linked (elements.set position x)
      cases holds_of_part? hy with
      | direct => cases hyn
      | setPosition hy =>
        rw [put, hes, hall hf]
        exact (List.getElem?_set_ne fun h => hst (congrArg setPosition h.symm)).trans hy
  · exact part?_put_of_firm hw hn (hf.firm hw) hst (fun i k _ hk => absurd ⟨k, hk⟩ hset) hy hyn

end Strategy

/-! ## Places along links -/

/-- Whether the elements of the set that a link leads into are all different up to there, with another value there. -/
def Link.Firm (l : Link) (v x : Value) : Prop := l.strategy.Firm (v.field l.property) x

namespace Value

variable {ls ms : List Link} {l : Link} {v w x y : Value}

/-- Whether the elements of each set on the way along some links are all different up to the one on the way, with another
value at the end of the links. -/
def Firm : List Link → (v x : Value) → Prop
  | [], _, _ => True
  | l :: rest, v, x => ∀ w, l.part? v = some w → Firm rest w x ∧ l.Firm v (put rest w x)

theorem Fits.firm (h : Fits ls v x) : Firm ls v x := by
  induction ls generalizing v with
  | nil => trivial
  | cons l rest ih =>
    intro w hw
    obtain ⟨hrest, hl⟩ := h w hw
    exact ⟨ih hrest, Strategy.Fits.firm hw hl⟩

theorem field_link_put (hw : l.part? v = some w) (hn : w.isEntity = true) :
    (l.put v x).field l.property = l.strategy.put (v.field l.property) x := by
  cases v with
  | entity type _ => exact field_withField_self rfl ..
  | _ => exact absurd (part?_null (l := l) hw) (isEntity_ne_null hn)

theorem part?_put_self (hw : l.part? v = some w) (hn : w.isEntity = true) (hf : l.Firm v x) :
    l.part? (l.put v x) = some x := by
  rw [Link.part?, field_link_put hw hn]
  exact Strategy.part?_put_self hw hf

/-- What was put in place is read there. -/
theorem at?_put_self (hw : at? ls v = some w) (hn : w.isEntity = true) (hf : Firm ls v x) :
    at? ls (put ls v x) = some x := by
  induction ls generalizing v with
  | nil => rfl
  | cons l rest ih =>
    obtain ⟨u, hu, hw'⟩ := Option.bind_eq_some_iff.1 hw
    obtain ⟨hrest, hl⟩ := hf u hu
    simp only [put, hu, Option.elim_some, at?, part?_put_self hu (isEntity_of_at? hw' hn) hl, Option.bind_some]
    exact ih hw' hrest

/-! ### Other places -/

/-- A value put at the end of some links leaves the entity alone that other links lead to where they part. -/
def Untouched : (ls : List Link) → (v x : Value) → (ms : List Link) → Prop
  | l :: rest, v, x, m :: ms => ∀ w, l.part? v = some w →
      (m = l → l.part? (l.put v (put rest w x)) = some (put rest w x) ∧ Untouched rest w x ms) ∧
        (m ≠ l → ∀ t, m.part? v = some t → t.isEntity = true → m.part? (l.put v (put rest w x)) = some t)
  | _, _, _, _ => True

/-- Where links enter a set, other links do not enter it at a later position. -/
def Precedes : (ms ls : List Link) → Prop
  | m :: ms, l :: ls => (m = l → Precedes ms ls) ∧
      (m.property = l.property → ∀ i k, m.strategy = .setPosition i → l.strategy = .setPosition k → i ≤ k)
  | _, _ => True

theorem link_part?_put_of_ne {m : Link} {t : Value} (hw : l.part? v = some w) (hn : w.isEntity = true) (hml : m ≠ l)
    (hm : m.part? v = some t)
    (hput : m.property = l.property → m.strategy ≠ l.strategy → m.strategy.part? (v.field l.property) = some t →
      m.strategy.part? (l.strategy.put (v.field l.property) x) = some t) : m.part? (l.put v x) = some t := by
  by_cases hp : m.property = l.property
  · rw [Link.part?, hp, field_link_put hw hn]
    rw [Link.part?, hp] at hm
    refine hput hp (fun h => hml ?_) hm
    cases m
    cases l
    simp_all
  · rw [Link.part?, Link.put, field_withField_of_ne hp]
    exact hm

theorem untouched_of_fits (hw : at? ls v = some w) (hn : w.isEntity = true) (hf : Fits ls v x) (ms : List Link) :
    Untouched ls v x ms := by
  induction ls generalizing v ms with
  | nil => trivial
  | cons l rest ih =>
    cases ms with
    | nil => trivial
    | cons m ms =>
      intro u hu
      obtain ⟨u', hu', hw'⟩ := Option.bind_eq_some_iff.1 hw
      cases hu.symm.trans hu'
      obtain ⟨hrest, hl⟩ := hf u hu
      have hun := isEntity_of_at? hw' hn
      refine ⟨fun _ => ⟨part?_put_self hu hun (Strategy.Fits.firm hu hl), ih hw' hrest ms⟩, fun hml t hm htn => ?_⟩
      exact link_part?_put_of_ne hu hun hml hm fun _ hst ht => Strategy.part?_put_of_fits hu hun hl hst ht htn

theorem untouched_of_firm (hw : at? ls v = some w) (hn : w.isEntity = true) (hf : Firm ls v x) (hp : Precedes ms ls) :
    Untouched ls v x ms := by
  induction ls generalizing v ms with
  | nil => trivial
  | cons l rest ih =>
    cases ms with
    | nil => trivial
    | cons m ms =>
      intro u hu
      obtain ⟨u', hu', hw'⟩ := Option.bind_eq_some_iff.1 hw
      cases hu.symm.trans hu'
      obtain ⟨hrest, hl⟩ := hf u hu
      have hun := isEntity_of_at? hw' hn
      refine ⟨fun hml => ⟨part?_put_self hu hun hl, ih hw' hrest (hp.1 hml)⟩, fun hml t hm htn => ?_⟩
      exact link_part?_put_of_ne hu hun hml hm fun heq hst ht =>
        Strategy.part?_put_of_firm hu hun hl hst (hp.2 heq) ht htn

/-- What is read elsewhere after an assignment that leaves it alone: on the way to the assigned value, what was read before
with the value put further down; below the assigned value, what is read there; and at other places what was read before. -/
theorem at?_put_of_untouched (hw : at? ls v = some w) (hu : Untouched ls v x ms) (hy : at? ms v = some y)
    (hyn : y.isEntity = true) :
    (∃ rest, at? rest y = some w ∧ at? ms (put ls v x) = some (put rest y x)) ∨
      (∃ m rest, at? (m :: rest) w = some y ∧ at? ms (put ls v x) = at? (m :: rest) x) ∨
      at? ms (put ls v x) = some y := by
  induction ls generalizing v ms with
  | nil =>
    cases hw
    cases ms with
    | nil =>
      cases hy
      exact .inl ⟨[], rfl, rfl⟩
    | cons m ms => exact .inr (.inl ⟨m, ms, hy, rfl⟩)
  | cons l rest ih =>
    cases ms with
    | nil =>
      cases hy
      exact .inl ⟨l :: rest, hw, rfl⟩
    | cons m ms =>
      obtain ⟨u, hl, hw'⟩ := Option.bind_eq_some_iff.1 hw
      obtain ⟨t, hm, hy'⟩ := Option.bind_eq_some_iff.1 hy
      obtain ⟨hsame, hother⟩ := hu u hl
      simp only [put, hl, Option.elim_some]
      by_cases hml : m = l
      · obtain ⟨hself, hrest⟩ := hsame hml
        subst hml
        cases hl.symm.trans hm
        rw [at?, hself, Option.bind_some]
        exact ih hw' hrest hy'
      · rw [at?, hother hml t hm (isEntity_of_at? hy' hyn), Option.bind_some]
        exact .inr (.inr hy')

end Value

end Aggregate
