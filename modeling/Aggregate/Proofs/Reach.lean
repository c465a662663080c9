import Mathlib
import Aggregate.Proofs.Firm
import Aggregate.Proofs.Keyed

/-!
# Values at like places

Assigning drops elements of sets and so moves others. What can be followed through assignments is all that lies at the
same place in elements of the same set.

- `Link.Like`: links that differ by positions in sets at most;
- `Value.reach`: the values at the end of links like some given ones, along fields that are not hidden;
- `Matched`: each value of either list has a value of the other one that it goes with;
- `Value.matched_put`: what an assignment does to the values at like places.
-/

namespace Aggregate

variable {hidden : Value.Hidden}

/-! ## Lists that match -/

/-- Each value of either list has a value of the other list that it goes with. -/
def Matched (Q : Value → Value → Prop) (vs us : List Value) : Prop :=
  (∀ v ∈ vs, ∃ u ∈ us, Q v u) ∧ ∀ u ∈ us, ∃ v ∈ vs, Q v u

namespace Matched

variable {Q R : Value → Value → Prop} {vs us ts : List Value}

theorem refl (hQ : ∀ v, Q v v) (vs : List Value) : Matched Q vs vs :=
  ⟨fun v hv => ⟨v, hv, hQ v⟩, fun v hv => ⟨v, hv, hQ v⟩⟩

theorem singleton {v u : Value} (h : Q v u) : Matched Q [v] [u] :=
  ⟨List.forall_mem_singleton.2 ⟨u, List.mem_singleton_self u, h⟩,
    List.forall_mem_singleton.2 ⟨v, List.mem_singleton_self v, h⟩⟩

theorem trans (hQ : ∀ {v u t}, Q v u → Q u t → Q v t) (h : Matched Q vs us) (h' : Matched Q us ts) :
    Matched Q vs ts := by
  refine ⟨fun v hv => ?_, fun t ht => ?_⟩
  · obtain ⟨u, hu, hvu⟩ := h.1 v hv
    obtain ⟨t, ht, hut⟩ := h'.1 u hu
    exact ⟨t, ht, hQ hvu hut⟩
  · obtain ⟨u, hu, hut⟩ := h'.2 t ht
    obtain ⟨v, hv, hvu⟩ := h.2 u hu
    exact ⟨v, hv, hQ hvu hut⟩

theorem flatMap {f : Value → List Value} (h : Matched R vs us)
    (hR : ∀ {v u}, v ∈ vs → u ∈ us → R v u → Matched Q (f v) (f u)) : Matched Q (vs.flatMap f) (us.flatMap f) := by
  refine ⟨fun x hx => ?_, fun x hx => ?_⟩
  · obtain ⟨v, hv, hx⟩ := List.mem_flatMap.1 hx
    obtain ⟨u, hu, hvu⟩ := h.1 v hv
    obtain ⟨y, hy, hxy⟩ := (hR hv hu hvu).1 x hx
    exact ⟨y, List.mem_flatMap_of_mem hu hy, hxy⟩
  · obtain ⟨u, hu, hx⟩ := List.mem_flatMap.1 hx
    obtain ⟨v, hv, hvu⟩ := h.2 u hu
    obtain ⟨y, hy, hxy⟩ := (hR hv hu hvu).2 x hx
    exact ⟨y, List.mem_flatMap_of_mem hv hy, hxy⟩

/-- Values that are those of a list with another one at one place. -/
theorem of_set (hrefl : ∀ v, R v v) {position : Nat} {w x : Value} (hw : us[position]? = some w)
    (hmem : ∀ v, v ∈ vs ↔ v ∈ us.set position x) (hxw : R x w) : Matched R vs us := by
  obtain ⟨hlt, rfl⟩ := List.getElem?_eq_some_iff.1 hw
  refine ⟨fun v hv => ?_, fun u hu => ?_⟩
  · rcases List.mem_or_eq_of_mem_set ((hmem v).1 hv) with hv | rfl
    · exact ⟨v, hv, hrefl v⟩
    · exact ⟨_, List.getElem_mem hlt, hxw⟩
  · obtain ⟨j, hj, rfl⟩ := List.mem_iff_getElem.1 hu
    by_cases hji : position = j
    · subst hji
      exact ⟨x, (hmem x).2 (List.mem_set hlt x), hxw⟩
    · refine ⟨_, (hmem _).2 (List.mem_iff_getElem?.2 ⟨j, ?_⟩), hrefl _⟩
      rw [List.getElem?_set_ne hji, List.getElem?_eq_getElem hj]

end Matched

/-! ## Like places -/

namespace ValueSet

/-- A set in order of insertion holds what was inserted, and no more. -/
theorem exists_mem_ofList_linked (vs : List Value) :
    ∃ es, (ofList .linked vs).toValue = .set .linked es ∧ ∀ v, v ∈ es ↔ v ∈ vs := by
  have hfold (kept : List Value) :
      ∃ es, vs.foldl insert ⟨.linked, kept⟩ = ⟨.linked, es⟩ ∧ ∀ v, v ∈ es ↔ v ∈ kept ∨ v ∈ vs := by
    induction vs generalizing kept with
    | nil => exact ⟨kept, rfl, by simp⟩
    | cons x rest ih =>
      by_cases hx : x ∈ kept
      · obtain ⟨es, hes, hmem⟩ := ih kept
        refine ⟨es, by rw [List.foldl_cons, insert, if_neg (by simp [admits, hx]), hes], fun v => ?_⟩
        rw [hmem, List.mem_cons]
        grind
      · obtain ⟨es, hes, hmem⟩ := ih (kept ++ [x])
        refine ⟨es, by rw [List.foldl_cons, insert, if_pos (by simp [admits, hx]), hes], fun v => ?_⟩
        rw [hmem, List.mem_append, List.mem_singleton, List.mem_cons, or_assoc]
  obtain ⟨es, hes, hmem⟩ := hfold []
  refine ⟨es, ?_, by simpa using hmem⟩
  rw [ofList, empty, hes]
  rfl

end ValueSet

namespace Strategy

/-- The places are the same, or both are positions in a set. -/
def Like (s t : Strategy) : Prop := s = t ∨ ∃ i k, s = setPosition i ∧ t = setPosition k

/-- The values at places of a container that are like a given one. -/
def parts : Strategy → Value → List Value
  | setPosition _, .set _ elements => elements
  | s, c => (s.part? c).toList

variable {s t : Strategy} {c w x : Value}

theorem mem_parts_of_part? (hst : s.Like t) (h : t.part? c = some w) : w ∈ s.parts c := by
  rcases hst with rfl | ⟨i, k, rfl, rfl⟩
  · cases holds_of_part? h with
    | direct => exact List.mem_singleton_self _
    | mapKey h | listIndex h => simpa [parts, part?] using h
    | setPosition h => exact List.mem_of_getElem? h
  · cases holds_of_part? h with
    | setPosition h => exact List.mem_of_getElem? h

theorem exists_part?_of_mem_parts (h : w ∈ s.parts c) : ∃ t : Strategy, t.part? c = some w := by
  unfold parts at h
  split at h
  · obtain ⟨i, hi⟩ := List.mem_iff_getElem?.1 h
    exact ⟨.setPosition i, hi⟩
  · exact ⟨s, Option.mem_toList.1 h⟩

/-- The values at like places of a container, after an entity took the place of another one: those from before, with the
new entity for the old one at places like its own. -/
theorem matched_parts_put {R : Value → Value → Prop} (hrefl : ∀ v, R v v)
    (hplain : ∀ {v u}, v.isEntity = false → u.isEntity = false → R v u) (hw : t.part? c = some w)
    (hn : w.isEntity = true) (hx : x.isEntity = true) (hlike : s.Like t → R x w) :
    Matched R (s.parts (t.put c x)) (s.parts c) := by
  cases holds_of_part? hw with
  | direct =>
    cases s with
    | direct => exact .singleton (hlike (.inl rfl))
    | known _ => exact .refl hrefl []
    | _ =>
      cases c <;> cases hn
      cases x <;> cases hx
      exact .refl hrefl []
  | @mapKey key _ entries hl =>
    cases s with
    | direct => exact .singleton (hplain rfl rfl)
    | mapKey other =>
      simp only [parts, part?, put]
      by_cases hk : other = key
      · subst hk
        rw [Keyed.lookup_insert_self, hl]
        exact .singleton (hlike (.inl rfl))
      · rw [Keyed.lookup_insert_of_ne hk]
        exact .refl hrefl _
    | _ => exact .refl hrefl []
  | @listIndex index _ items hi =>
    cases s with
    | direct => exact .singleton (hplain rfl rfl)
    | listIndex other =>
      simp only [parts, part?, put]
      by_cases hk : index = other
      · subst hk
        rw [List.getElem?_set_self (List.getElem?_eq_some_iff.1 hi).1, hi]
        exact .singleton (hlike (.inl rfl))
      · rw [List.getElem?_set_ne hk]
        exact .refl hrefl _
    | _ => exact .refl hrefl []
  | @setPosition position _ _ elements hi =>
    obtain ⟨es, hes, hmem⟩ := ValueSet.exists_mem_ofList_linked (elements.set position x)
    rw [put, hes]
    cases s with
    | direct => exact .singleton (hplain rfl rfl)
    | setPosition other => exact .of_set hrefl hi hmem (hlike (.inr ⟨other, position, rfl, rfl⟩))
    | _ => exact .refl hrefl []

end Strategy

/-- Links along the same properties, to places that are alike. -/
def Link.Like (l m : Link) : Prop := l.property = m.property ∧ l.strategy.Like m.strategy

theorem Link.Like.refl (l : Link) : l.Like l := ⟨rfl, .inl rfl⟩

/-! ## Reaching along links -/

namespace Value

/-- The field of this name is hidden on the value. -/
def hides (hidden : Hidden) (v : Value) (name : String) : Bool := v.type?.any (hidden · name)

/-- The values at the end of links like these, along fields that are not hidden. -/
def reach (hidden : Hidden) : List Link → Value → List Value
  | [], v => [v]
  | l :: rest, v =>
    if v.hides hidden l.property then [] else (l.strategy.parts (v.field l.property)).flatMap (reach hidden rest)

/-- Values of one type that hold values as related in a field, if it is not hidden. -/
def HoldsAlike (hidden : Hidden) (name : String) (ρ : Value → Value → Prop) (v u : Value) : Prop :=
  v.type? = u.type? ∧ (u.hides hidden name = false → ρ (v.field name) (u.field name))

variable {name : String} {ρ : Value → Value → Prop} {u v w x y : Value} {ls ms : List Link}

theorem hides_congr (h : v.type? = u.type?) (name : String) : v.hides hidden name = u.hides hidden name := by
  rw [hides, hides, h]

theorem shows_of_hides (h : v.hides hidden name = false) : v.Shows hidden name := by
  intro type ht
  simpa [hides, ht] using h

theorem type?_eq_none (h : v.isEntity = false) : v.type? = none := by
  cases v <;> first | rfl | cases h

theorem field_eq_null (h : v.isEntity = false) (name : String) : v.field name = .null := by
  cases v <;> first | rfl | cases h

theorem HoldsAlike.refl (hrefl : ∀ c, ρ c c) (v : Value) : HoldsAlike hidden name ρ v v := ⟨rfl, fun _ => hrefl _⟩

theorem HoldsAlike.trans (htrans : ∀ {a b c}, ρ a b → ρ b c → ρ a c) (h : HoldsAlike hidden name ρ v u)
    (h' : HoldsAlike hidden name ρ u w) : HoldsAlike hidden name ρ v w :=
  ⟨h.1.trans h'.1, fun hw => htrans (h.2 (hides_congr h'.1 name ▸ hw)) (h'.2 hw)⟩

/-- Values that are no entities hold nothing. -/
theorem matched_reach_of_plain (hrefl : ∀ c, ρ c c) (hv : v.isEntity = false) (hu : u.isEntity = false)
    (ls : List Link) : Matched (HoldsAlike hidden name ρ) (v.reach hidden ls) (u.reach hidden ls) := by
  have ht : v.type? = u.type? := (type?_eq_none hv).trans (type?_eq_none hu).symm
  have hfield (name : String) : v.field name = u.field name :=
    (field_eq_null hv name).trans (field_eq_null hu name).symm
  cases ls with
  | nil => exact .singleton ⟨ht, fun _ => hfield name ▸ hrefl _⟩
  | cons l rest =>
    rw [reach, reach, hides_congr ht, hfield]
    exact .refl (HoldsAlike.refl hrefl) _

theorem reach_append (ls ms : List Link) (v : Value) :
    v.reach hidden (ls ++ ms) = (v.reach hidden ls).flatMap (reach hidden ms) := by
  induction ls generalizing v with
  | nil => simp [reach]
  | cons l rest ih =>
    rw [List.cons_append, reach, reach]
    split
    · rfl
    · rw [List.flatMap_assoc]
      exact List.flatMap_congr fun w _ => ih w

/-- What lies at a place is reached along links like those to it. -/
theorem mem_reach_of_at? (hlike : List.Forall₂ Link.Like ls ms) (hw : v.at? ms = some w) :
    w ∈ v.reach (fun _ _ => false) ls := by
  induction hlike generalizing v with
  | nil => exact List.mem_singleton.2 (Option.some.inj hw).symm
  | cons h _ ih =>
    obtain ⟨t, ht, hwt⟩ := Option.bind_eq_some_iff.1 hw
    rw [reach, if_neg (by simp [hides])]
    refine List.mem_flatMap_of_mem (Strategy.mem_parts_of_part? h.2 ?_) (ih hwt)
    rwa [h.1]

/-- What is so of all values inside is so of what is reached. -/
theorem Everywhere.reach {P : Value → Prop} (hnull : P null) (h : v.Everywhere hidden P) (hw : w ∈ v.reach hidden ls) :
    w.Everywhere hidden P := by
  induction ls generalizing v with
  | nil => exact List.mem_singleton.1 hw ▸ h
  | cons l rest ih =>
    rw [Value.reach] at hw
    split at hw
    · cases hw
    · rename_i hshown
      obtain ⟨t, ht, hw⟩ := List.mem_flatMap.1 hw
      obtain ⟨s, hs⟩ := Strategy.exists_part?_of_mem_parts ht
      exact ih ((h.field hnull (shows_of_hides (by simpa using hshown))).placed hs) hw

/-- What is reached through a field is the same where the same values are held in it. -/
theorem mem_reach_through {l : Link} {rest : List Link}
    (h : Matched (HoldsAlike (fun _ _ => false) l.property Eq) (v.reach (fun _ _ => false) ls)
      (u.reach (fun _ _ => false) ls))
    (hw : w ∈ v.reach (fun _ _ => false) (ls ++ l :: rest)) : w ∈ u.reach (fun _ _ => false) (ls ++ l :: rest) := by
  rw [reach_append] at hw ⊢
  obtain ⟨x, hx, hw⟩ := List.mem_flatMap.1 hw
  obtain ⟨y, hy, htype, hfield⟩ := h.1 x hx
  refine List.mem_flatMap_of_mem hy ?_
  rw [reach, hides_congr htype, hfield (by simp [hides])] at hw
  rwa [reach]

/-- What an assignment does to the values at like places: those match from before and after, if what was assigned
matches what was there, and the container that was rebuilt goes with the one before. -/
theorem matched_put (hrefl : ∀ c, ρ c c) (hw : v.at? ms = some w) (hn : w.isEntity = true) (ht : y.type? = w.type?)
    (hat : ∀ pre rest, ls = pre ++ rest → List.Forall₂ Link.Like pre ms →
      Matched (HoldsAlike hidden name ρ) (y.reach hidden rest) (w.reach hidden rest))
    (hin : ∀ pre l rest h t x, ms = pre ++ l :: rest → List.Forall₂ Link.Like ls pre → l.property = name →
      v.at? pre = some h → l.part? h = some t → t.at? rest = some w → x.isEntity = true →
        ρ (l.strategy.put (h.field name) x) (h.field name)) :
    Matched (HoldsAlike hidden name ρ) ((v.put ms y).reach hidden ls) (v.reach hidden ls) := by
  induction ms generalizing v ls with
  | nil =>
    cases hw
    cases ls with
    | nil => exact hat [] [] rfl .nil
    | cons l rest => exact hat [] (l :: rest) rfl .nil
  | cons m ms ih =>
    obtain ⟨t, hm, hwt⟩ := Option.bind_eq_some_iff.1 hw
    have htn := isEntity_of_at? hwt hn
    have hyn : y.isEntity = true := isEntity_iff.2 (ht ▸ isEntity_iff.1 hn)
    have hxn : (t.put ms y).isEntity = true := isEntity_put hwt hn hyn
    obtain ⟨type, htype⟩ := isEntity_iff.1 (isEntity_of_at? hw hn)
    have hputt : (m.put v (t.put ms y)).type? = v.type? := type?_withField ..
    simp only [put, hm, Option.elim_some]
    cases ls with
    | nil =>
      refine .singleton ⟨hputt, fun _ => ?_⟩
      by_cases hname : name = m.property
      · subst hname
        rw [Link.put, field_withField_self htype]
        exact hin [] m ms v t _ rfl .nil rfl rfl hm hwt hxn
      · rw [Link.put, field_withField_of_ne hname]
        exact hrefl _
    | cons l rest =>
      rw [reach, reach, hides_congr hputt]
      by_cases hshown : v.hides hidden l.property = true
      · rw [if_pos hshown, if_pos hshown]
        exact .refl (HoldsAlike.refl hrefl) _
      rw [if_neg hshown, if_neg hshown]
      rw [Bool.not_eq_true] at hshown
      by_cases hname : l.property = m.property
      · rw [hname, Link.put, field_withField_self htype]
        refine Matched.flatMap (R := fun v u => Matched (HoldsAlike hidden name ρ) (v.reach hidden rest)
          (u.reach hidden rest)) ?_ fun _ _ h => h
        refine Strategy.matched_parts_put (fun v => .refl (HoldsAlike.refl hrefl) _)
          (fun hv hu => matched_reach_of_plain hrefl hv hu rest) hm htn hxn fun hlike => ?_
        -- the same of the entity one link further
        refine ih hwt (fun pre rest' hls hpre => ?_) fun pre m' rest' h t' x hms hpre hname' hh => ?_
        · exact hat (l :: pre) rest' (by rw [hls]; rfl) (.cons ⟨hname, hlike⟩ hpre)
        · refine hin (m :: pre) m' rest' h t' x (by rw [hms]; rfl) (.cons ⟨hname, hlike⟩ hpre) hname' ?_
          rw [at?, hm]
          exact hh
      · rw [Link.put, field_withField_of_ne hname]
        exact .refl (HoldsAlike.refl hrefl) _

/-- What setting a field does to the values at like places: those match from before and after, if what the field holds
does, unless it is hidden. -/
theorem matched_withField (hrefl : ∀ c, ρ c c) (hn : w.isEntity = true) {field : String} {x : Value}
    (hfield : ls = [] → name = field → w.hides hidden field = false → ρ x (w.field field))
    (hparts : ∀ l rest, ls = l :: rest → w.hides hidden field = false → Matched (HoldsAlike hidden name ρ)
      ((l.strategy.parts x).flatMap (reach hidden rest))
      ((l.strategy.parts (w.field field)).flatMap (reach hidden rest))) :
    Matched (HoldsAlike hidden name ρ) ((w.withField field x).reach hidden ls) (w.reach hidden ls) := by
  obtain ⟨type, htype⟩ := isEntity_iff.1 hn
  have ht : (w.withField field x).type? = w.type? := type?_withField ..
  cases ls with
  | nil =>
    refine .singleton ⟨ht, fun hshown => ?_⟩
    by_cases hname : name = field
    · subst hname
      rw [field_withField_self htype]
      exact hfield rfl rfl hshown
    · rw [field_withField_of_ne hname]
      exact hrefl _
  | cons l rest =>
    rw [reach, reach, hides_congr ht]
    by_cases hshown : w.hides hidden l.property = true
    · rw [if_pos hshown, if_pos hshown]
      exact .refl (HoldsAlike.refl hrefl) _
    rw [if_neg hshown, if_neg hshown]
    by_cases hname : l.property = field
    · rw [hname, field_withField_self htype]
      exact hparts l rest rfl (by simpa [hname] using hshown)
    · rw [field_withField_of_ne hname]
      exact .refl (HoldsAlike.refl hrefl) _

/-- Values at the same places match if they match at places of another ordering of a set. -/
theorem matched_parts_of_set (hrefl : ∀ c, ρ c c) (s : Strategy) (ordering ordering' : SetOrdering)
    (elements : List Value) (ls : List Link) :
    Matched (HoldsAlike hidden name ρ) ((s.parts (.set ordering elements)).flatMap (reach hidden ls))
      ((s.parts (.set ordering' elements)).flatMap (reach hidden ls)) := by
  cases s with
  | direct =>
    simp only [Strategy.parts, Strategy.part?, Option.toList, List.flatMap_cons, List.flatMap_nil, List.append_nil]
    exact matched_reach_of_plain hrefl rfl rfl ls
  | _ => exact .refl (HoldsAlike.refl hrefl) _

end Value

end Aggregate
