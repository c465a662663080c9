import Mathlib
import Aggregate.Proofs.Writing

/-!
# Loss of set elements

Assigning can make two elements of a set equal, and the set then keeps one of them. What a plan addresses is in the end
no longer there, whatever is assigned afterwards.

- `Value.Drops`: what an erasure may see of an assignment that changes no field it keeps: elements of the sets on the
  way may be gone (`Value.drops_put`);
- `Value.Short`: links lead beyond the end of a set that has lost elements, so that they lead to nothing
  (`Value.Short.at?_eq_none`);
- `Value.lasts`: the last elements of the sets which some links lead into;
- `Value.Short.persists`, `Value.Drops.short`: after an assignment the same links, or one of these last elements, stay
  or become unreachable.
-/

namespace Aggregate

variable {hidden : Value.Hidden}

/-! ## Containers that lose elements -/

/-- How many elements a set has. -/
def Value.card : Value → Nat
  | set _ elements => elements.length
  | _ => 0

namespace Strategy

/-- How many elements the set has that a place is in. -/
def width : Strategy → Value → Nat
  | setPosition _, c => c.card
  | _, _ => 0

/-- The position in a set. -/
def position : Strategy → Nat
  | setPosition position => position
  | _ => 0

/-- The container `c'` is `c` with another value at a place, up to set elements that are gone. -/
def Replaces : Strategy → (c x c' : Value) → Prop
  | setPosition position, .set ordering elements, x, c' =>
    ∃ es, es.Sublist (elements.set position x) ∧ c' = .set ordering es
  | s, c, x, c' => c' = s.modify (fun _ => x) c

variable {s t : Strategy} {c c' w x y : Value}

theorem part?_modify_mapKey (f : Value → Value) (key other : Value) (entries : List (Value × Value)) :
    (mapKey other).part? ((mapKey key).modify f (.map entries)) =
      if other = key then (entries.lookup other).map f else entries.lookup other :=
  Keyed.lookup_map_at f key other entries

/-- What an erasure sees of a container with another value at a place. -/
theorem replaces_put (hw : s.part? c = some w) (ho : c.InKeyOrder) :
    s.Replaces (c.erase hidden) (x.erase hidden) ((s.put c x).erase hidden) := by
  cases holds_of_part? hw with
  | direct | mapKey _ | listIndex _ => exact erase_put hw ho trivial
  | @setPosition position _ _ elements _ =>
    obtain ⟨es, hsub, -, -, hes⟩ := ValueSet.ofList_linked (elements.set position x)
    rw [put, hes]
    simp only [Value.erase, Value.eraseAll_eq_map, Replaces, ← List.map_set]
    exact ⟨_, hsub.map _, rfl⟩

theorem width_le_of_replaces (hw : t.part? c = some w) (hx : x.isEntity = true) (h : t.Replaces c x c') (s : Strategy) :
    s.width c' ≤ s.width c := by
  cases holds_of_part? hw with
  | direct =>
    cases h
    cases x <;> cases hx
    cases s <;> exact Nat.zero_le _
  | mapKey _ | listIndex _ =>
    cases h
    cases s <;> exact Nat.zero_le _
  | setPosition _ =>
    obtain ⟨es, hsub, rfl⟩ := h
    cases s with
    | setPosition _ => simpa [width, Value.card] using hsub.length_le
    | _ => exact Nat.zero_le _

/-- If no element is gone, the container has the new value in place of the old one. -/
theorem eq_modify_of_replaces (hw : t.part? c = some w) (h : t.Replaces c x c') (hl : t.width c' = t.width c) :
    c' = t.modify (fun _ => x) c := by
  cases holds_of_part? hw with
  | direct | mapKey _ | listIndex _ => exact h
  | setPosition _ =>
    obtain ⟨es, hsub, rfl⟩ := h
    rw [hsub.eq_of_length (by simpa [width, Value.card] using hl), List.set_eq_modify]
    rfl

/-- If no element is gone, an entity in the container stays where it is, unless it is the one replaced. -/
theorem part?_of_replaces (hw : t.part? c = some w) (hn : w.isEntity = true) (h : t.Replaces c x c')
    (hl : s.width c' = s.width c) (hy : s.part? c = some y) (hyn : y.isEntity = true) :
    s.part? c' = some y ∨ y = w ∧ s.part? c' = some x := by
  cases holds_of_part? hw with
  | direct =>
    cases h
    cases holds_of_part? hy with
    | direct => exact .inr ⟨rfl, rfl⟩
    | _ => cases hn
  | @mapKey key _ entries hk =>
    cases h
    cases holds_of_part? hy with
    | direct => cases hyn
    | @mapKey other _ _ hy =>
      rw [part?_modify_mapKey]
      by_cases ho : other = key
      · subst ho
        cases hk.symm.trans hy
        exact .inr ⟨rfl, by simp [hk]⟩
      · exact .inl (by simp [ho, hy])
  | @listIndex index _ items hi =>
    cases h
    cases holds_of_part? hy with
    | direct => cases hyn
    | @listIndex other _ _ hy =>
      simp only [modify, part?, List.getElem?_modify]
      by_cases ho : index = other
      · subst ho
        cases hi.symm.trans hy
        exact .inr ⟨rfl, by simp [hi]⟩
      · exact .inl (by simp [ho, hy])
  | @setPosition position ordering _ elements hi =>
    obtain ⟨es, hsub, rfl⟩ := h
    cases holds_of_part? hy with
    | direct => cases hyn
    | @setPosition other _ _ _ hy =>
      rw [hsub.eq_of_length (by simpa [width, Value.card] using hl)]
      simp only [part?, List.getElem?_set]
      by_cases ho : position = other
      · subst ho
        cases hi.symm.trans hy
        exact .inr ⟨rfl, by simp [(List.getElem?_eq_some_iff.1 hi).1]⟩
      · exact .inl (by simp [ho, hy])

theorem part?_modify_self {f : Value → Value} (hw : s.part? c = some w) : s.part? (s.modify f c) = some (f w) := by
  cases holds_of_part? hw with
  | direct => rfl
  | mapKey hk => rw [part?_modify_mapKey, if_pos rfl, hk]; rfl
  | listIndex hi => simp [modify, part?, hi]
  | setPosition hi => simp [modify, part?, hi]

theorem part?_eq_none_of_width_le {i : Nat} (h : (setPosition i).width c ≤ i) : (setPosition i).part? c = none := by
  cases c with
  | set _ elements => exact List.getElem?_eq_none h
  | _ => rfl

end Strategy

/-! ## Links that lead nowhere -/

namespace Link

/-- How many elements the set has that a link leads into. -/
def width (l : Link) (v : Value) : Nat := l.strategy.width (v.field l.property)

/-- The link to the last element of the set that a link leads into. -/
def last (l : Link) (v : Value) : Link := ⟨l.property, .setPosition ((v.field l.property).card - 1)⟩

end Link

namespace Value

/-- The links lead beyond the end of a set in `r` that has lost elements compared with `u`; all sets on the way there
have as many elements in `r` as in `u`. -/
def Short : List Link → (u r : Value) → Prop
  | [], _, _ => False
  | l :: rest, u, r =>
    l.width r < l.width u ∧ l.width r ≤ l.strategy.position ∨
      l.width r = l.width u ∧ ∃ u' r', l.part? u = some u' ∧ l.part? r = some r' ∧ r'.isEntity = true ∧ Short rest u' r'

/-- The links to the last elements of the sets that some links lead into, where these are not last themselves, the inner
sets first. -/
def lasts : List Link → Value → List (List Link)
  | [], _ => []
  | l :: rest, u =>
    ((l.part? u).elim [] fun u' => (lasts rest u').map (l :: ·)) ++
      if l.strategy.position + 1 < l.width u then [[l.last u]] else []

/-- The value `e'` is `e` after an assignment at the end of some links, with nothing changed but that sets on the way may
have lost elements. -/
def Drops : List Link → (e e' : Value) → Prop
  | [], e, e' => e' = e
  | l :: rest, e, e' =>
    e' = e ∨ ∃ w x c', l.part? e = some w ∧ w.isEntity = true ∧ x.isEntity = true ∧ Drops rest w x ∧
      l.strategy.Replaces (e.field l.property) x c' ∧ e' = e.modifyField l.property fun _ => c'

variable {ls ms : List Link} {l : Link} {u r r' e e' v w x : Value}

theorem field_modifyField_self {f : Value → Value} (hv : v.field l.property ≠ null) :
    (v.modifyField l.property f).field l.property = f (v.field l.property) := by
  cases v with
  | entity type fields =>
    simp only [modifyField, field, Fields.get, Keyed.lookup_map_at, if_true] at hv ⊢
    cases h : fields.lookup l.property with
    | none => simp [h] at hv
    | some c => rfl
  | _ => exact absurd rfl hv

theorem field_modifyField_of_ne {name other : String} (h : other ≠ name) (f : Value → Value) (v : Value) :
    (v.modifyField name f).field other = v.field other := by
  cases v with
  | entity type fields => simp only [modifyField, field, Fields.get, Keyed.lookup_map_at, if_neg h]
  | _ => rfl

theorem isEntity_iff : v.isEntity = true ↔ ∃ type, v.type? = some type := by
  cases v <;> simp [isEntity, type?]

@[simp] theorem isEntity_withField (v : Value) (name : String) (x : Value) :
    (v.withField name x).isEntity = v.isEntity := by
  cases v <;> rfl

theorem isEntity_ne_null (h : v.isEntity = true) : v ≠ null := by
  rintro rfl
  cases h

/-- What lies beyond the end of a set is not there. -/
theorem Short.at?_eq_none (h : Short ls u r) : at? ls r = none := by
  induction ls generalizing u r with
  | nil => exact h.elim
  | cons l rest ih =>
    rcases h with ⟨hlt, hle⟩ | ⟨-, u', r', -, hr', -, h⟩
    · obtain ⟨property, strategy⟩ := l
      cases strategy with
      | setPosition i => simp [at?, Link.part?, Strategy.part?_eq_none_of_width_le hle]
      | _ => cases hlt
    · simp [at?, hr', ih h]

theorem lasts_append (h : at? ls u = some v) (ms : List Link) :
    lasts (ls ++ ms) u = (lasts ms v).map (ls ++ ·) ++ lasts ls u := by
  induction ls generalizing u with
  | nil => cases h; simp [lasts]
  | cons l rest ih =>
    obtain ⟨w, hw, h⟩ := Option.bind_eq_some_iff.1 h
    simp [lasts, hw, ih h, Function.comp_def]

theorem lasts_singleton (l : Link) (u : Value) :
    lasts [l] u = if l.strategy.position + 1 < l.width u then [[l.last u]] else [] := by
  rw [lasts]
  cases l.part? u <;> rfl

theorem lasts_last (l : Link) (u : Value) : lasts [l.last u] u = [] := by
  have hn : ¬ (l.last u).strategy.position + 1 < (l.last u).width u := by
    change ¬ (u.field l.property).card - 1 + 1 < (u.field l.property).card
    omega
  rw [lasts_singleton, if_neg hn]

theorem short_last (h : l.width r < l.width u) : Short [l.last u] u r := by
  obtain ⟨property, strategy⟩ := l
  cases strategy with
  | setPosition i => exact .inl ⟨h, Nat.le_sub_one_of_lt h⟩
  | _ => cases h

/-- Where a set is too short for a link, the link or the one to the set's last element leads nowhere. -/
theorem short_of_width_lt (h : l.width r < l.width u) (ms : List Link) :
    ∃ ls, (ls :: lasts ls u) <:+ ((l :: ms) :: lasts (l :: ms) u) ∧ Short ls u r := by
  by_cases hle : l.width r ≤ l.strategy.position
  · exact ⟨l :: ms, List.suffix_rfl, .inl ⟨h, hle⟩⟩
  · obtain ⟨property, strategy⟩ := l
    cases strategy with
    | setPosition i =>
      have hi : i + 1 < Link.width ⟨property, .setPosition i⟩ u := by
        simp only [Strategy.position] at hle
        omega
      refine ⟨[Link.last ⟨property, .setPosition i⟩ u], ?_, short_last h⟩
      rw [lasts_last, lasts, if_pos (show Strategy.position (.setPosition i) + 1 < _ from hi), ← List.cons_append]
      exact List.suffix_append _ _
    | _ => cases h

theorem suffix_cons (hu : l.part? u = some v) {ks : List Link}
    (h : (ks :: lasts ks v) <:+ (ls :: lasts ls v)) :
    ((l :: ks) :: lasts (l :: ks) u) <:+ ((l :: ls) :: lasts (l :: ls) u) := by
  obtain ⟨pre, hpre⟩ := h
  refine ⟨pre.map (l :: ·), ?_⟩
  simp only [lasts, hu, Option.elim_some, ← List.cons_append, ← List.append_assoc, ← List.map_cons, ← List.map_append,
    hpre]

/-- What is unreachable stays so, or elements get lost further out, and then the last element of the outer set becomes
unreachable. -/
theorem Short.persists (h : Short ls u e) (hd : Drops ms e e') :
    ∃ ks, (ks :: lasts ks u) <:+ (ls :: lasts ls u) ∧ Short ks u e' := by
  induction ls generalizing ms u e e' with
  | nil => exact h.elim
  | cons l rest ih =>
    cases ms with
    | nil => cases hd; exact ⟨_, List.suffix_rfl, h⟩
    | cons m ms =>
      obtain rfl | ⟨w, x, c', hw, hwn, hxn, hd, hc, rfl⟩ := hd
      · exact ⟨_, List.suffix_rfl, h⟩
      by_cases hp : l.property = m.property
      · -- the assignment goes through the same property
        have hfield : (e.modifyField m.property fun _ => c').field l.property = c' := by
          rw [hp, field_modifyField_self (field_ne_null hw (isEntity_ne_null hwn))]
        have hwidth : l.width (e.modifyField m.property fun _ => c') = l.strategy.width c' := by
          rw [Link.width, hfield]
        have hwidthe : l.width e = l.strategy.width (e.field m.property) := by
          rw [Link.width, hp]
        have hle := Strategy.width_le_of_replaces hw hxn hc l.strategy
        rcases h with ⟨hlt, hpos⟩ | ⟨heq, u', r', hu', hr', hrn, h⟩
        · exact ⟨_, List.suffix_rfl, .inl ⟨by omega, by omega⟩⟩
        rcases Nat.lt_or_eq_of_le hle with hlt | heq'
        · exact short_of_width_lt (by omega) rest
        have hpart : l.part? (e.modifyField m.property fun _ => c') = l.strategy.part? c' := by
          rw [Link.part?, hfield]
        rw [Link.part?, hp] at hr'
        rcases Strategy.part?_of_replaces hw hwn hc heq' hr' hrn with hr | ⟨rfl, hx⟩
        · exact ⟨_, List.suffix_rfl, .inr ⟨by omega, u', r', hu', hpart.trans hr, hrn, h⟩⟩
        · obtain ⟨ks, hks, hshort⟩ := ih h hd
          exact ⟨l :: ks, suffix_cons hu' hks, .inr ⟨by omega, u', x, hu', hpart.trans hx, hxn, hshort⟩⟩
      · have hfield := field_modifyField_of_ne hp (fun _ => c') e
        refine ⟨_, List.suffix_rfl, ?_⟩
        simpa only [Short, Link.width, Link.part?, hfield] using h

/-- The first elements that get lost make the links of the assignment, or the ones to the last element of a set on the
way, unreachable. -/
theorem Drops.short (hd : Drops ls u e') (ho : u.Canonical) :
    e' = u ∨ ∃ ks, (ks :: lasts ks u) <:+ (ls :: lasts ls u) ∧ Short ks u e' := by
  induction ls generalizing u e' with
  | nil => exact .inl hd
  | cons l rest ih =>
    obtain rfl | ⟨w, x, c', hw, hwn, hxn, hd, hc, rfl⟩ := hd
    · exact .inl rfl
    have hfield : (u.modifyField l.property fun _ => c').field l.property = c' := by
      rw [field_modifyField_self (field_ne_null hw (isEntity_ne_null hwn))]
    have hwidth : l.width (u.modifyField l.property fun _ => c') = l.strategy.width c' := by
      rw [Link.width, hfield]
    have hshows : u.Shows (fun _ _ => false) l.property := fun _ _ => rfl
    rcases Nat.lt_or_eq_of_le (Strategy.width_le_of_replaces hw hxn hc l.strategy) with hlt | heq
    · exact .inr (short_of_width_lt (hwidth.trans_lt hlt) rest)
    have hmod := Strategy.eq_modify_of_replaces hw hc heq
    rcases ih hd (ho.part trivial hshows hw) with rfl | ⟨ks, hks, hshort⟩
    · left
      calc u.modifyField l.property (fun _ => c')
          = u.modifyField l.property (l.strategy.modify fun _ => x) := modifyField_congr ho.self hmod
        _ = l.modify (fun y => y) u := link_modify_congr ho.self (ho.field trivial hshows).self fun y hy => by
            rw [hw] at hy
            cases hy
            rfl
        _ = u := modify_self [l] u
    · refine .inr ⟨l :: ks, suffix_cons hw hks, .inr ⟨hwidth.trans heq, w, x, hw, ?_, hxn, hshort⟩⟩
      rw [Link.part?, hfield, hmod]
      exact Strategy.part?_modify_self hw

/-! ## Assignments that an erasure does not see -/

theorem isEntity_erase : (v.erase hidden).isEntity = v.isEntity := by
  cases v <;> rfl

theorem isEntity_of_at? (h : at? ls v = some w) (hw : w.isEntity = true) : v.isEntity = true := by
  cases ls with
  | nil => cases h; exact hw
  | cons l rest =>
    cases v with
    | entity _ _ => rfl
    | _ => exact absurd (@at?_null (l :: rest) _ h) (isEntity_ne_null hw)

theorem isEntity_put (hw : at? ls v = some w) (hn : w.isEntity = true) (hx : x.isEntity = true) :
    (put ls v x).isEntity = true := by
  cases ls with
  | nil => exact hx
  | cons l rest =>
    have hv := isEntity_of_at? hw hn
    obtain ⟨u, hu, -⟩ := Option.bind_eq_some_iff.1 hw
    simp only [put, hu, Option.elim_some, Link.put]
    cases v <;> cases hv
    rfl

/-- What an erasure sees when an entity is replaced by one that it cannot tell from it. -/
theorem drops_put (hw : at? ls v = some w) (hn : w.isEntity = true) (ho : v.Ordered hidden)
    (hx : x.erase hidden = w.erase hidden) : Drops ls (v.erase hidden) ((put ls v x).erase hidden) := by
  induction ls generalizing v with
  | nil => cases hw; exact hx
  | cons l rest ih =>
    obtain ⟨u, hu, hw⟩ := Option.bind_eq_some_iff.1 hw
    have hun := isEntity_of_at? hw hn
    simp only [put, hu, Option.elim_some]
    by_cases hs : v.Shows hidden l.property
    · have hd := ih hw (ho.part trivial hs hu)
      have hne := isEntity_ne_null hun
      have hyn : (put rest u x).isEntity = true :=
        isEntity_put hw hn (by rw [← @isEntity_erase hidden, hx, isEntity_erase, hn])
      refine .inr ⟨u.erase hidden, (put rest u x).erase hidden, (l.strategy.put (v.field l.property)
        (put rest u x)).erase hidden, by rw [part?_erase hs, hu]; rfl, by rwa [isEntity_erase],
        by rwa [isEntity_erase], hd, ?_, erase_withField (field_ne_null hu hne) ho.self hs⟩
      rw [field_erase hs]
      exact Strategy.replaces_put hu (ho.field trivial hs).self
    · left
      simp only [Shows, not_forall, Bool.not_eq_false] at hs
      obtain ⟨type, ht, hs⟩ := hs
      cases v <;> cases ht
      simp only [Link.put, withField, erase, Fields.set, eraseFields_insert_of_hidden hs]

/-- The value `v'` is `v` after an entity at the end of some links was replaced by one that the erasure cannot tell from
it, and that is in order if the old one was. -/
def Retouches (hidden cover : Hidden) (ls : List Link) (v v' : Value) : Prop :=
  ∃ w x, at? ls v = some w ∧ w.isEntity = true ∧ x.erase hidden = w.erase hidden ∧
    (w.Ordered cover → x.Ordered cover) ∧ v' = put ls v x

variable {cover : Hidden} {v' : Value}

theorem Retouches.ordered (h : Retouches hidden cover ls v v') (ho : v.Ordered cover) : v'.Ordered cover := by
  obtain ⟨w, x, hw, -, -, hx, rfl⟩ := h
  exact ordered_put ho hw hx

theorem Retouches.drops (h : Retouches hidden cover ls v v') (ho : v.Ordered hidden) :
    Drops ls (v.erase hidden) (v'.erase hidden) := by
  obtain ⟨w, x, hw, hn, hx, -, rfl⟩ := h
  exact drops_put hw hn ho hx

variable {tame : Hidden}

/-- Nothing is lost where the elements of all sets differ in what an erasure keeps that leaves out more. -/
theorem Retouches.erase_eq (h : Retouches hidden cover ls v v') (hle : hidden ≤ tame) (ho : v.Ordered hidden)
    (hs : Shown tame ls v) (hd : (v.erase tame).SetsNodup) : v'.erase hidden = v.erase hidden := by
  obtain ⟨w, x, hw, hn, hx, -, rfl⟩ := h
  have hne := isEntity_ne_null hn
  have hf := fits_of_setsNodup hw hne (ho.mono hle) hs hd (erase_eq_of_le hle hx)
  exact erase_put_of_erase_eq hw hne ho (hs.mono hle) hf hx

/-- Elements of a set that, but for what an erasure leaves out, held one twice are gone: one of several places has become
unreachable, and the last elements of the sets on the way there are among these places as well. -/
def Lost (tame : Hidden) (u : Value) (places : List (List Link)) (e : Value) : Prop :=
  ¬ (u.erase tame).SetsNodup ∧ ∃ ls, (ls :: lasts ls u).Sublist places ∧ Short ls u e

variable {places further : List (List Link)}

/-- What can still be found was not lost. -/
theorem Lost.of_cons {p : List Link} (h : Lost tame u (p :: places) e) (hp : at? p e ≠ none) : Lost tame u places e := by
  obtain ⟨hn, ls, hls, hshort⟩ := h
  refine ⟨hn, ls, ?_, hshort⟩
  cases hls with
  | cons _ hls => exact hls
  | cons_cons _ _ => exact absurd hshort.at?_eq_none hp

theorem not_lost_nil : ¬ Lost tame u [] e := fun ⟨_, _, hls, _⟩ => nomatch hls

theorem Lost.mono (h : Lost tame u places e) (hp : places.Sublist further) : Lost tame u further e := by
  obtain ⟨hn, ls, hls, h⟩ := h
  exact ⟨hn, ls, hls.trans hp, h⟩

/-- What was lost is not found again. -/
theorem Lost.retouches (h : Lost tame u places (v.erase hidden)) (hr : Retouches hidden cover ls v v')
    (ho : v.Ordered hidden) : Lost tame u places (v'.erase hidden) := by
  obtain ⟨hn, ms, hms, h⟩ := h
  obtain ⟨ks, hks, h⟩ := h.persists (hr.drops ho)
  exact ⟨hn, ks, hks.sublist.trans hms, h⟩

/-- An assignment to a value that has lost nothing loses nothing, or the place of the assignment, or a last element on
the way there. -/
theorem Retouches.erase_eq_or_lost (h : Retouches hidden cover ls v v') (hle : hidden ≤ tame) (ho : v.Ordered hidden)
    (hs : Shown tame ls v) :
    v'.erase hidden = v.erase hidden ∨
      Lost tame (v.erase hidden) (ls :: lasts ls (v.erase hidden)) (v'.erase hidden) := by
  by_cases hd : (v.erase tame).SetsNodup
  · exact .inl (h.erase_eq hle ho hs hd)
  · refine ((h.drops ho).short ho.canonical).imp_right ?_
    rintro ⟨ks, hks, h⟩
    exact ⟨by rwa [erase_erase hle], ks, hks.sublist, h⟩

end Value

end Aggregate
