import Mathlib
import Aggregate.Proofs.Links

/-!
# Writing along links

What an erasure sees of a value that is put at the end of links.

- `Value.Shown`: links that lead through no hidden field;
- `Value.erase_put`: where no set on the way would hold an element twice, the erasure sees the one place changed;
- `Value.fits_of_setsNodup`: no set does if the elements of all sets differ in what the erasure keeps, and the new
  value looks to the erasure like the old one, which then sees no change at all;
- `Value.Lasting`, `Value.everywhere_put`: what holds everywhere in a value and outlasts a write, such as the order of
  fields and entries (`Value.ordered_put`).
-/

namespace Aggregate

variable {hidden cover : Value.Hidden}

/-! ## Reading an erased value -/

theorem lookup_map_values {κ α β : Type} [BEq κ] (f : α → β) (key : κ) (entries : List (κ × α)) :
    (entries.map fun e => (e.1, f e.2)).lookup key = (entries.lookup key).map f := by
  induction entries with
  | nil => rfl
  | cons e rest ih =>
    obtain ⟨k, a⟩ := e
    simp only [List.map_cons, List.lookup_cons, ih]
    split <;> rfl

/-- Erasing keeps the places of a container. -/
theorem Strategy.part?_erase (s : Strategy) (c : Value) :
    s.part? (c.erase hidden) = (s.part? c).map (Value.erase hidden) := by
  cases s with
  | known _ => rfl
  | direct => rfl
  | mapKey key =>
    cases c with
    | map entries => simp only [Value.erase, Strategy.part?, Value.eraseEntries_eq_map, lookup_map_values]
    | _ => rfl
  | listIndex index =>
    cases c with
    | list items => simp only [Value.erase, Strategy.part?, Value.eraseAll_eq_map, List.getElem?_map]
    | _ => rfl
  | setPosition position =>
    cases c with
    | set _ elements => simp only [Value.erase, Strategy.part?, Value.eraseAll_eq_map, List.getElem?_map]
    | _ => rfl

namespace Value

/-- The field of this name is not hidden on the value. -/
def Shows (hidden : Hidden) (v : Value) (name : String) : Prop :=
  ∀ type, v.type? = some type → hidden type name = false

/-- The links lead through no hidden field. -/
def Shown (hidden : Hidden) : List Link → Value → Prop
  | [], _ => True
  | l :: rest, v => v.Shows hidden l.property ∧ ∀ w, l.part? v = some w → Shown hidden rest w

theorem shown_of_none (ls : List Link) (v : Value) : Shown (fun _ _ => false) ls v := by
  induction ls generalizing v with
  | nil => trivial
  | cons l rest ih => exact ⟨fun _ _ => rfl, fun w _ => ih w⟩

theorem Shows.mono {more : Hidden} (hle : hidden ≤ more) {v : Value} {name : String} (h : v.Shows more name) :
    v.Shows hidden name := fun type ht => Hidden.eq_false_of_le hle (h type ht)

theorem Shown.mono {more : Hidden} (hle : hidden ≤ more) {ls : List Link} {v : Value} (h : Shown more ls v) :
    Shown hidden ls v := by
  induction ls generalizing v with
  | nil => trivial
  | cons l rest ih => exact ⟨h.1.mono hle, fun w hw => ih (h.2 w hw)⟩

theorem field_erase {v : Value} {name : String} (h : v.Shows hidden name) :
    (v.erase hidden).field name = (v.field name).erase hidden := by
  cases v with
  | entity type fields => exact get_eraseFields (h type rfl) fields
  | _ => rfl

theorem part?_erase {l : Link} {v : Value} (h : v.Shows hidden l.property) :
    l.part? (v.erase hidden) = (l.part? v).map (erase hidden) := by
  rw [Link.part?, field_erase h, Strategy.part?_erase, Link.part?]

theorem at?_erase {ls : List Link} {v : Value} (h : Shown hidden ls v) :
    at? ls (v.erase hidden) = (at? ls v).map (erase hidden) := by
  induction ls generalizing v with
  | nil => rfl
  | cons l rest ih =>
    rw [at?, part?_erase h.1, at?]
    cases hw : l.part? v with
    | none => rfl
    | some w => exact ih (h.2 w hw)

theorem shown_append {ls ms : List Link} {v w : Value} (h : Shown hidden ls v) (hw : at? ls v = some w)
    (hm : Shown hidden ms w) : Shown hidden (ls ++ ms) v := by
  induction ls generalizing v with
  | nil => cases hw; exact hm
  | cons l rest ih =>
    obtain ⟨u, hu, hw⟩ := Option.bind_eq_some_iff.1 hw
    refine ⟨h.1, fun t ht => ?_⟩
    rw [hu] at ht
    cases ht
    exact ih (h.2 u hu) hw

/-! ## Properties of parts -/

section Everywhere

variable {P : Value → Prop} {v w : Value}

theorem Everywhere.field (hnull : P null) (h : v.Everywhere hidden P) {name : String} (hs : v.Shows hidden name) :
    (v.field name).Everywhere hidden P := by
  cases v with
  | entity type fields =>
    simp only [Value.field, Fields.get]
    cases hl : fields.lookup name with
    | none => exact hnull
    | some x =>
      obtain ⟨pre, post, rfl, -⟩ := List.lookup_eq_some_iff.1 hl
      exact everywhereFields_iff.1 h.2 (name, x) (by simp) (hs type rfl)
  | _ => exact hnull

theorem Everywhere.placed {c : Value} (h : c.Everywhere hidden P) {s : Strategy} (hw : s.part? c = some w) :
    w.Everywhere hidden P := by
  cases Strategy.holds_of_part? hw with
  | direct => exact h
  | @mapKey key _ _ hl =>
    obtain ⟨pre, post, rfl, -⟩ := List.lookup_eq_some_iff.1 hl
    exact everywhereEntries_iff.1 h.2 (key, w) (by simp)
  | listIndex hi => exact everywhereAll_iff.1 h.2 _ (List.mem_of_getElem? hi)
  | setPosition hi => exact everywhereAll_iff.1 h.2 _ (List.mem_of_getElem? hi)

theorem Everywhere.part (hnull : P null) (h : v.Everywhere hidden P) {l : Link} (hs : v.Shows hidden l.property)
    (hw : l.part? v = some w) : w.Everywhere hidden P :=
  (h.field hnull hs).placed hw

theorem Everywhere.at (hnull : P null) (h : v.Everywhere hidden P) {ls : List Link} (hs : Shown hidden ls v)
    (hw : at? ls v = some w) : w.Everywhere hidden P := by
  induction ls generalizing v with
  | nil => cases hw; exact h
  | cons l rest ih =>
    obtain ⟨u, hu, hw⟩ := Option.bind_eq_some_iff.1 hw
    exact ih (h.part hnull hs.1 hu) (hs.2 u hu) hw

end Everywhere

/-- An erased value is in order; it may be looked into wherever it was before or the erased fields are. -/
theorem ordered_erase {seen : Hidden} {v : Value} (h : v.Ordered cover)
    (hc : ∀ type name, seen type name = false → hidden type name = false → cover type name = false) :
    (v.erase hidden).Ordered seen := by
  induction v using induction with
  | null | bool _ | int _ | text _ => exact h
  | entity type fields ih =>
    rw [erase, eraseFields_eq_map]
    refine ⟨?_, everywhereFields_iff.2 fun g hg hs => ?_⟩
    · exact List.pairwise_map.2 (h.1.sublist List.filter_sublist)
    · obtain ⟨f, hf, rfl⟩ := List.mem_map.1 hg
      obtain ⟨hf, hh⟩ := List.mem_filter.1 hf
      exact ih f hf (everywhereFields_iff.1 h.2 f hf (hc type f.1 hs (by simpa using hh)))
  | list items ih =>
    rw [erase, eraseAll_eq_map]
    refine ⟨trivial, everywhereAll_iff.2 fun x hx => ?_⟩
    obtain ⟨w, hw, rfl⟩ := List.mem_map.1 hx
    exact ih w hw (everywhereAll_iff.1 h.2 w hw)
  | set ordering elements ih =>
    rw [erase, eraseAll_eq_map]
    refine ⟨trivial, everywhereAll_iff.2 fun x hx => ?_⟩
    obtain ⟨w, hw, rfl⟩ := List.mem_map.1 hx
    exact ih w hw (everywhereAll_iff.1 h.2 w hw)
  | map entries ih =>
    rw [erase, eraseEntries_eq_map]
    refine ⟨List.pairwise_map.2 h.1, everywhereEntries_iff.2 fun x hx => ?_⟩
    obtain ⟨e, he, rfl⟩ := List.mem_map.1 hx
    exact ih e he (everywhereEntries_iff.1 h.2 e he)

theorem Ordered.erase {v : Value} (h : v.Ordered cover) : (v.erase hidden).Ordered cover :=
  ordered_erase h fun _ _ hs _ => hs

theorem Ordered.canonical {v : Value} (h : v.Ordered hidden) : (v.erase hidden).Canonical :=
  ordered_erase h fun _ _ _ hh => hh

end Value

/-! ## Properties that assigning keeps -/

/-- A property of values that does not depend on what a value holds, but for the places. -/
structure Value.Lasting (P : Value → Prop) : Prop where
  null : P .null
  entity {type : String} {fields : List (String × Value)} (name : String) (x : Value) :
    P (.entity type fields) → P (.entity type (Keyed.insert name x fields))
  map {key w : Value} {entries : List (Value × Value)} (x : Value) : entries.lookup key = some w → P (.map entries) →
    P (.map (Keyed.insert key x entries))
  list {items : List Value} (index : Nat) (x : Value) : P (.list items) → P (.list (items.set index x))
  set {elements : List Value} : elements.Nodup → P (.set .linked elements)

section Lasting

variable {P : Value → Prop} (hP : Value.Lasting P)

include hP

/-- A container keeps the property everywhere when a value with the property takes the place of another. -/
theorem Strategy.everywhere_put {s : Strategy} {c w x : Value} (hc : c.Everywhere hidden P) (hw : s.part? c = some w)
    (hx : x.Everywhere hidden P) : (s.put c x).Everywhere hidden P := by
  cases holds_of_part? hw with
  | direct => exact hx
  | mapKey hl =>
    refine ⟨hP.map x hl hc.1, Value.everywhereEntries_iff.2 fun e he => ?_⟩
    rcases Keyed.mem_insert he with he | rfl
    · exact Value.everywhereEntries_iff.1 hc.2 e he
    · exact hx
  | listIndex _ =>
    refine ⟨hP.list _ x hc.1, Value.everywhereAll_iff.2 fun y hy => ?_⟩
    rcases List.mem_or_eq_of_mem_set hy with hy | rfl
    · exact Value.everywhereAll_iff.1 hc.2 y hy
    · exact hx
  | @setPosition position _ _ elements _ =>
    obtain ⟨es, hsub, hnodup, -, hes⟩ := ValueSet.ofList_linked (elements.set position x)
    rw [put, hes]
    refine ⟨hP.set hnodup, Value.everywhereAll_iff.2 fun y hy => ?_⟩
    rcases List.mem_or_eq_of_mem_set (hsub.subset hy) with hy | rfl
    · exact Value.everywhereAll_iff.1 hc.2 y hy
    · exact hx

namespace Value

theorem everywhere_withField {v x : Value} {name : String} (h : v.Everywhere hidden P)
    (hx : v.Shows hidden name → x.Everywhere hidden P) : (v.withField name x).Everywhere hidden P := by
  cases v with
  | entity type fields =>
    refine ⟨hP.entity name x h.1, everywhereFields_iff.2 fun g hg hs => ?_⟩
    rcases Keyed.mem_insert hg with hg | rfl
    · exact everywhereFields_iff.1 h.2 g hg hs
    · exact hx fun t ht => by cases ht; exact hs
  | _ => exact h

/-- Values keep the property everywhere when a value with the property takes the place of another. -/
theorem everywhere_put {ls : List Link} {v w x : Value} (h : v.Everywhere hidden P) (hw : at? ls v = some w)
    (hx : w.Everywhere hidden P → x.Everywhere hidden P) : (put ls v x).Everywhere hidden P := by
  induction ls generalizing v with
  | nil => cases hw; exact hx h
  | cons l rest ih =>
    obtain ⟨u, hu, hw⟩ := Option.bind_eq_some_iff.1 hw
    simp only [put, hu, Option.elim_some]
    refine everywhere_withField hP h fun hs => ?_
    exact Strategy.everywhere_put hP (h.field hP.null hs) hu (ih (h.part hP.null hs hu) hw)

end Value

end Lasting

namespace Value

theorem lasting_inKeyOrder : Lasting InKeyOrder where
  null := trivial
  entity name x h := Keyed.ascending_insert h name x
  map x hl h := Keyed.ascending_insert_of_lookup h hl x
  list _ _ _ := trivial
  set _ := trivial

theorem lasting_isNodup : Lasting IsNodup where
  null := trivial
  entity _ _ _ := trivial
  map _ _ _ := trivial
  list _ _ _ := trivial
  set h := h

theorem ordered_withField {v x : Value} {name : String} (h : v.Ordered hidden)
    (hx : v.Shows hidden name → x.Ordered hidden) : (v.withField name x).Ordered hidden :=
  everywhere_withField lasting_inKeyOrder h hx

/-- Values stay in order when a value in order takes the place of another. -/
theorem ordered_put {ls : List Link} {v w x : Value} (h : v.Ordered hidden) (hw : at? ls v = some w)
    (hx : w.Ordered hidden → x.Ordered hidden) : (put ls v x).Ordered hidden :=
  everywhere_put lasting_inKeyOrder h hw hx

end Value

/-! ## Changing one place -/

theorem Strategy.modify_congr {f g : Value → Value} {s : Strategy} {c : Value} (ho : c.InKeyOrder)
    (h : ∀ w, s.part? c = some w → f w = g w) : s.modify f c = s.modify g c := by
  cases s with
  | known _ => rfl
  | direct => exact h c rfl
  | mapKey key =>
    cases c with
    | map entries =>
      refine congrArg Value.map (List.map_congr_left fun e he => ?_)
      split
      · rename_i hk
        rw [h e.2 (Keyed.lookup_of_mem ho (hk ▸ he))]
      · rfl
    | _ => rfl
  | listIndex index =>
    cases c with
    | list items =>
      refine congrArg Value.list (List.ext_getElem? fun i => ?_)
      simp only [List.getElem?_modify]
      split
      · rename_i hi
        subst hi
        cases hv : items[index]? with
        | none => rfl
        | some w => simp [h w hv]
      · rfl
    | _ => rfl
  | setPosition position =>
    cases c with
    | set ordering elements =>
      refine congrArg (Value.set ordering) (List.ext_getElem? fun i => ?_)
      simp only [List.getElem?_modify]
      split
      · rename_i hi
        subst hi
        cases hv : elements[position]? with
        | none => rfl
        | some w => simp [h w hv]
      · rfl
    | _ => rfl

theorem Strategy.modify_self (s : Strategy) (c : Value) : s.modify (fun v => v) c = c := by
  change s.modify id c = c
  cases s <;> cases c <;> simp [modify, List.modify_id]

namespace Value

theorem modifyField_congr {f g : Value → Value} {v : Value} {name : String} (ho : v.InKeyOrder)
    (h : f (v.field name) = g (v.field name)) : v.modifyField name f = v.modifyField name g := by
  cases v with
  | entity type fields =>
    refine congrArg (entity type) (List.map_congr_left fun e he => ?_)
    split
    · rename_i hn
      have hl := Keyed.lookup_of_mem ho (show (name, e.2) ∈ fields from hn ▸ he)
      simp only [field, Fields.get, hl, Option.getD_some] at h
      rw [h]
    · rfl
  | _ => rfl

theorem modifyField_self (v : Value) (name : String) : v.modifyField name (fun c => c) = v := by
  cases v <;> simp [modifyField]

theorem link_modify_congr {f g : Value → Value} {l : Link} {v : Value} (ho : v.InKeyOrder)
    (hc : (v.field l.property).InKeyOrder) (h : ∀ w, l.part? v = some w → f w = g w) :
    l.modify f v = l.modify g v :=
  modifyField_congr ho (Strategy.modify_congr hc h)

/-- Changes at the end of links that do the same to the value there are the same. -/
theorem modify_congr {f g : Value → Value} {ls : List Link} {v : Value} (ho : v.Ordered cover)
    (hs : Shown cover ls v) (h : ∀ w, at? ls v = some w → f w = g w) : modify f ls v = modify g ls v := by
  induction ls generalizing v with
  | nil => exact h v rfl
  | cons l rest ih =>
    refine link_modify_congr ho.self (ho.field trivial hs.1).self fun w hw => ?_
    exact ih (ho.part trivial hs.1 hw) (hs.2 w hw) fun u hu => h u (by simp [at?, hw, hu])

theorem modify_self (ls : List Link) (v : Value) : modify (fun w => w) ls v = v := by
  induction ls generalizing v with
  | nil => rfl
  | cons l rest ih =>
    rw [modify, funext ih, Link.modify, funext (Strategy.modify_self l.strategy), modifyField_self]

end Value

/-- Erasing and changing one place commute. -/
theorem Strategy.erase_modify {f g : Value → Value} (h : ∀ v, (f v).erase hidden = g (v.erase hidden)) (s : Strategy)
    (c : Value) : (s.modify f c).erase hidden = s.modify g (c.erase hidden) := by
  have hlist (vs : List Value) (i : Nat) :
      (vs.modify i f).map (Value.erase hidden) = (vs.map (Value.erase hidden)).modify i g := by
    refine List.ext_getElem? fun j => ?_
    simp only [List.getElem?_map, List.getElem?_modify]
    split <;> cases vs[j]? <;> simp [h]
  cases s with
  | known _ => rfl
  | direct => exact h c
  | mapKey key =>
    cases c with
    | map entries =>
      simp only [modify, Value.erase, Value.eraseEntries_eq_map, List.map_map]
      refine congrArg Value.map (List.map_congr_left fun e _ => ?_)
      simp only [Function.comp_apply]
      split <;> simp [h]
    | _ => rfl
  | listIndex index =>
    cases c with
    | list items => simp only [modify, Value.erase, Value.eraseAll_eq_map, hlist]
    | _ => rfl
  | setPosition position =>
    cases c with
    | set ordering elements => simp only [modify, Value.erase, Value.eraseAll_eq_map, hlist]
    | _ => rfl

namespace Value

theorem erase_modifyField {f g : Value → Value} (h : ∀ v, (f v).erase hidden = g (v.erase hidden)) (name : String)
    (v : Value) : (v.modifyField name f).erase hidden = (v.erase hidden).modifyField name g := by
  cases v with
  | entity type fields =>
    have hkeep : ((fun e : String × Value => !hidden type e.1) ∘ fun e => if e.1 = name then (e.1, f e.2) else e) =
        fun e => !hidden type e.1 := by
      funext e
      simp only [Function.comp_apply]
      split <;> rfl
    simp only [modifyField, erase, eraseFields_eq_map, List.filter_map, List.map_map, hkeep]
    refine congrArg (entity type) (List.map_congr_left fun e _ => ?_)
    simp only [Function.comp_apply]
    split <;> simp [h]
  | _ => rfl

theorem erase_modify {f g : Value → Value} (h : ∀ v, (f v).erase hidden = g (v.erase hidden)) (ls : List Link)
    (v : Value) : (modify f ls v).erase hidden = modify g ls (v.erase hidden) := by
  induction ls generalizing v with
  | nil => exact h v
  | cons l rest ih => exact erase_modifyField (fun c => Strategy.erase_modify ih l.strategy c) l.property v

/-- Forgetting the orderings of sets and setting a field commute. -/
theorem unlabel_withField (v : Value) (name : String) (x : Value) :
    (v.withField name x).unlabel = v.unlabel.withField name x.unlabel := by
  cases v with
  | entity type fields =>
    simp only [unlabel, withField, erase, eraseFields_eq_map, Bool.not_false, List.filter_true, Fields.set,
      Keyed.insert_map]
  | _ => rfl

/-- Forgetting the orderings of sets and setting a field at the end of links commute. -/
theorem unlabel_modify_withField (ls : List Link) (v : Value) (name : String) (x : Value) :
    (modify (fun w => w.withField name x) ls v).unlabel =
      modify (fun w => w.withField name x.unlabel) ls v.unlabel :=
  erase_modify (f := fun w => w.withField name x) (g := fun w => w.withField name x.unlabel)
    (fun w => unlabel_withField w name x) ls v

end Value

/-! ## Assigning without loss -/

/-- What an erasure sees of a container with another value at a place, when nothing is dropped. -/
theorem Strategy.erase_put {s : Strategy} {c w x : Value} (hw : s.part? c = some w) (ho : c.InKeyOrder)
    (hf : s.Fits c x) : (s.put c x).erase hidden = s.modify (fun _ => x.erase hidden) (c.erase hidden) := by
  cases holds_of_part? hw with
  | direct => rfl
  | mapKey hl =>
    simp only [put, modify, Value.erase, Value.eraseEntries_eq_map, Keyed.insert_eq_map ho hl, List.map_map]
    refine congrArg Value.map (List.map_congr_left fun e _ => ?_)
    simp only [Function.comp_apply]
    split <;> rfl
  | listIndex _ =>
    simp only [put, modify, Value.erase, Value.eraseAll_eq_map, List.map_set, ← List.set_eq_modify]
  | @setPosition position _ _ elements _ =>
    obtain ⟨es, -, -, hall, hes⟩ := ValueSet.ofList_linked (elements.set position x)
    rw [put, hes, hall hf]
    simp only [modify, Value.erase, Value.eraseAll_eq_map, List.map_set, ← List.set_eq_modify]

namespace Value

theorem erase_withField {v x : Value} {name : String} (hv : v.field name ≠ null) (ho : v.InKeyOrder)
    (hs : v.Shows hidden name) :
    (v.withField name x).erase hidden = (v.erase hidden).modifyField name fun _ => x.erase hidden := by
  cases v with
  | entity type fields =>
    obtain ⟨c, hc⟩ : ∃ c, fields.lookup name = some c := by
      cases hl : fields.lookup name with
      | none => exact absurd (by simp [field, Fields.get, hl]) hv
      | some c => exact ⟨c, rfl⟩
    simp only [withField, Fields.set, modifyField, erase, eraseFields_eq_map, Keyed.insert_eq_map ho hc,
      List.filter_map, List.map_map]
    refine congrArg (entity type) ?_
    have hkeep : ((fun f : String × Value => !hidden type f.1) ∘ fun e => if e.1 = name then (e.1, x) else e) =
        fun f => !hidden type f.1 := by
      funext e
      simp only [Function.comp_apply]
      split <;> rfl
    rw [hkeep]
    refine List.map_congr_left fun e _ => ?_
    simp only [Function.comp_apply]
    split <;> rfl
  | _ => rfl

theorem part?_null {l : Link} {w : Value} (h : l.part? null = some w) : w = null := by
  obtain ⟨property, strategy⟩ := l
  cases strategy <;> cases h
  rfl

/-- Nothing but `null` lies below `null`. -/
theorem at?_null {ls : List Link} {w : Value} (h : at? ls null = some w) : w = null := by
  induction ls with
  | nil => cases h; rfl
  | cons l rest ih =>
    obtain ⟨u, hu, h⟩ := Option.bind_eq_some_iff.1 h
    exact ih (part?_null hu ▸ h)

theorem field_ne_null {l : Link} {v w : Value} (hw : l.part? v = some w) (hn : w ≠ null) :
    v.field l.property ≠ null := by
  intro h
  rw [Link.part?, h] at hw
  obtain ⟨property, strategy⟩ := l
  cases strategy <;> cases hw
  exact hn rfl

variable {ls : List Link} {v w x : Value}

theorem link_erase_put {l : Link} (hw : l.part? v = some w) (hn : w ≠ null) (ho : v.Ordered cover)
    (hc : v.Shows cover l.property) (hs : v.Shows hidden l.property) (hf : l.Fits v x) :
    (l.put v x).erase hidden = l.modify (fun _ => x.erase hidden) (v.erase hidden) := by
  rw [Link.put, erase_withField (field_ne_null hw hn) ho.self hs,
    Strategy.erase_put hw (ho.field trivial hc).self hf, Link.modify]
  refine modifyField_congr (Ordered.erase ho).self ?_
  rw [field_erase hs]

/-- What an erasure sees of a value put at the end of links, when no set on the way drops anything. -/
theorem erase_put (hw : at? ls v = some w) (hn : w ≠ null) (ho : v.Ordered cover) (hc : Shown cover ls v)
    (hs : Shown hidden ls v) (hf : Fits ls v x) :
    (put ls v x).erase hidden = modify (fun _ => x.erase hidden) ls (v.erase hidden) := by
  induction ls generalizing v with
  | nil => rfl
  | cons l rest ih =>
    obtain ⟨u, hu, hw⟩ := Option.bind_eq_some_iff.1 hw
    have hun : u ≠ null := by
      rintro rfl
      exact hn (at?_null hw)
    obtain ⟨hrest, hl⟩ := hf u hu
    have hin := ih hw (ho.part trivial hc.1 hu) (hc.2 u hu) (hs.2 u hu) hrest
    simp only [put, hu, Option.elim_some]
    rw [link_erase_put hu hun ho hc.1 hs.1 hl, modify]
    refine link_modify_congr (Ordered.erase ho).self ?_ fun t ht => ?_
    · rw [field_erase hs.1]
      exact (Ordered.erase (ho.field trivial hc.1)).self
    · rw [part?_erase hs.1, hu] at ht
      cases ht
      exact hin

theorem modify_of_at? (hw : at? ls v = some w) (ho : v.Ordered cover) (hs : Shown cover ls v) :
    modify (fun _ => w) ls v = v := by
  rw [modify_congr (g := fun u => u) ho hs fun u hu => ?_, modify_self]
  rw [hw] at hu
  cases hu
  rfl

theorem shown_erase (h : Shown cover ls v) (hs : Shown hidden ls v) : Shown cover ls (v.erase hidden) := by
  induction ls generalizing v with
  | nil => trivial
  | cons l rest ih =>
    refine ⟨fun t ht => h.1 t (by rwa [type?_erase] at ht), fun w hw => ?_⟩
    rw [part?_erase hs.1] at hw
    obtain ⟨u, hu, rfl⟩ := Option.map_eq_some_iff.1 hw
    exact ih (h.2 u hu) (hs.2 u hu)

/-- An erasure does not see a value put in place of one that looks the same, when no set on the way drops anything. -/
theorem erase_put_of_erase_eq (hw : at? ls v = some w) (hn : w ≠ null) (ho : v.Ordered hidden)
    (hs : Shown hidden ls v) (hf : Fits ls v x) (hx : x.erase hidden = w.erase hidden) :
    (put ls v x).erase hidden = v.erase hidden := by
  rw [erase_put hw hn ho hs hs hf, hx]
  refine modify_of_at? ?_ (Ordered.erase ho) (shown_erase hs hs)
  rw [at?_erase hs, hw]
  rfl

/-- If the elements of all sets differ in what an erasure keeps, nothing is dropped for a value that looks the same as
the one whose place it takes. -/
theorem fits_of_setsNodup (hw : at? ls v = some w) (hn : w ≠ null) (ho : v.Ordered hidden) (hs : Shown hidden ls v)
    (hd : (v.erase hidden).SetsNodup) (hx : x.erase hidden = w.erase hidden) : Fits ls v x := by
  induction ls generalizing v with
  | nil => trivial
  | cons l rest ih =>
    intro u hu
    have hw' : at? rest u = some w := by simpa [at?, hu] using hw
    have hou := ho.part trivial hs.1 hu
    have hue : l.part? (v.erase hidden) = some (u.erase hidden) := by rw [part?_erase hs.1, hu]; rfl
    have hfits := ih hw' hou (hs.2 u hu) (Everywhere.part trivial hd (fun _ _ => rfl) hue)
    refine ⟨hfits, ?_⟩
    have hsame := erase_put_of_erase_eq hw' hn hou (hs.2 u hu) hfits hx
    have hdc : ((v.field l.property).erase hidden).IsNodup := by
      rw [← field_erase hs.1]
      exact (Everywhere.field trivial hd fun _ _ => rfl).self
    obtain ⟨property, strategy⟩ := l
    cases strategy with
    | setPosition position =>
      simp only [Link.Fits, Link.part?] at hu ⊢
      generalize v.field property = c at *
      cases c with
      | set ordering elements =>
        simp only [erase, IsNodup, eraseAll_eq_map] at hdc
        obtain ⟨hi, rfl⟩ := List.getElem?_eq_some_iff.1 hu
        refine List.Nodup.of_map (erase hidden) ?_
        rw [List.map_set, hsame, ← List.map_set, List.set_getElem_self]
        exact hdc
      | _ => trivial
    | _ => trivial

end Value

end Aggregate
