import Mathlib
import Aggregate.Proofs.BackFill
import Aggregate.Proofs.Preorder

/-!
# Identifiers and loss

Where entities are told apart by their identifiers, no set element gets lost before all elements of the set have one.

- `Value.key?_at?_put`: the keys of other entities after an identifier was put in place;
- `Value.fits_or_short`: what a new value in place makes of the sets on the way;
- `Leads.firm`: where the entities that lead to a place have different keys, no set drops an element up to the place;
- `Occurrence.leads`: what leads to an entity comes before it; `Occurrence.trailing_all`: the last elements of sets come
  late.
-/

namespace Aggregate

open Value (Shown Short lasts)

variable {hidden : Value.Hidden} {schema : Schema}

/-! ## Reading after an assignment -/

namespace Strategy

variable {s t : Strategy} {c w x y : Value}

theorem width_put_of_fits (hw : s.part? c = some w) (hf : s.Fits c x) : s.width (s.put c x) = s.width c := by
  cases holds_of_part? hw with
  | direct | mapKey _ | listIndex _ => rfl
  | @setPosition position _ _ elements _ =>
    obtain ⟨es, -, -, hall, hes⟩ := ValueSet.ofList_linked (elements.set position x)
    rw [put, hes, hall hf]
    exact List.length_set

/-- A set that would hold an element twice has fewer elements afterwards. -/
theorem width_put_lt (hw : s.part? c = some w) (hf : ¬ s.Fits c x) : s.width (s.put c x) < s.width c := by
  cases holds_of_part? hw with
  | direct | mapKey _ | listIndex _ => exact absurd trivial hf
  | @setPosition position _ _ elements _ =>
    obtain ⟨es, hsub, hnodup, -, hes⟩ := ValueSet.ofList_linked (elements.set position x)
    rw [put, hes]
    have hle : es.length ≤ elements.length := by simpa using hsub.length_le
    refine Nat.lt_of_le_of_ne hle fun (heq : es.length = elements.length) => hf ?_
    rw [hsub.eq_of_length (by simpa using heq)] at hnodup
    exact hnodup

/-- A set with another last element drops nothing, if all its elements are different. -/
theorem Firm.fits (hw : s.part? c = some w) (hf : s.Firm c x) (hle : s.width c ≤ s.position + 1) : s.Fits c x := by
  cases holds_of_part? hw with
  | direct | mapKey _ | listIndex _ => trivial
  | @setPosition position _ _ elements hi =>
    obtain ⟨hlt, -⟩ := List.getElem?_eq_some_iff.1 hi
    have hdrop : elements.drop (position + 1) = [] := List.drop_eq_nil_of_le hle
    rw [Fits, set_eq_take_append hlt, hdrop, List.append_nil]
    exact hf

end Strategy

namespace Value

variable {ls ms : List Link} {l : Link} {v w x y : Value} {type name : String}

/-- Putting an identifier in place does not change the keys of the entities elsewhere that are left alone. -/
theorem key?_at?_put (hname : schema.idProperty? type = some name) {id : Value} (hls : Shown schema.isId ls v)
    (hms : Shown schema.isId ms v) (hw : at? ls v = some w) (ht : w.type? = some type)
    (hu : Untouched ls v (w.withField name id) ms) (hne : ms ≠ ls) (hy : at? ms v = some y) (hyn : y.isEntity = true) :
    (at? ms (put ls v (w.withField name id))).bind schema.key? = schema.key? y := by
  induction ls generalizing v ms with
  | nil =>
    cases hw
    cases ms with
    | nil => exact absurd rfl hne
    | cons m rest =>
      have hm : m.property ≠ name := by
        intro heq
        have := hms.1 type ht
        simp [Schema.isId, hname, heq] at this
      have hpart : m.part? (w.withField name id) = m.part? w := by
        rw [Link.part?, field_withField_of_ne hm, Link.part?]
      rw [put, at?, hpart]
      rw [at?] at hy
      rw [hy, Option.bind_some]
  | cons l rest ih =>
    obtain ⟨u, hl, hw'⟩ := Option.bind_eq_some_iff.1 hw
    simp only [put, hl, Option.elim_some]
    cases ms with
    | nil =>
      cases hy
      exact Schema.key?_withField_of_shows hls.1 _
    | cons m ms =>
      obtain ⟨t, hm, hy'⟩ := Option.bind_eq_some_iff.1 hy
      obtain ⟨hsame, hother⟩ := hu u hl
      by_cases hml : m = l
      · obtain ⟨hself, hrest⟩ := hsame hml
        subst hml
        cases hl.symm.trans hm
        rw [at?, hself, Option.bind_some]
        exact ih (hls.2 u hl) (hms.2 u hl) hw' hrest (fun h => hne (congrArg _ h)) hy'
      · rw [at?, hother hml t hm (isEntity_of_at? hy' hyn), Option.bind_some, hy', Option.bind_some]

/-! ## Sets that drop elements -/

theorem width_erase (hs : v.Shows hidden l.property) : l.width (v.erase hidden) = l.width v := by
  rw [Link.width, field_erase hs, Link.width]
  cases l.strategy with
  | setPosition _ =>
    cases v.field l.property <;> simp [Strategy.width, card, erase, eraseAll_eq_map]
  | _ => rfl

/-- For a value that takes the place of one which an erasure cannot tell from it, no set drops anything, or the last
element of a set on the way becomes unreachable, if the elements up to the place are all different. -/
theorem fits_or_short (hw : at? ls v = some w) (hn : w.isEntity = true) (hx : x.isEntity = true)
    (hs : Shown hidden ls v) (hf : Firm ls v x) :
    Fits ls v x ∨ ∃ ks, (ks :: lasts ks (v.erase hidden)) <:+ lasts ls (v.erase hidden) ∧
      Short ks (v.erase hidden) ((put ls v x).erase hidden) := by
  induction ls generalizing v with
  | nil => exact .inl trivial
  | cons l rest ih =>
    obtain ⟨u, hu, hw'⟩ := Option.bind_eq_some_iff.1 hw
    obtain ⟨hrest, hfirm⟩ := hf u hu
    have hun := isEntity_of_at? hw' hn
    have hput : put (l :: rest) v x = l.put v (put rest u x) := by simp [put, hu]
    have hue : l.part? (v.erase hidden) = some (u.erase hidden) := by rw [part?_erase hs.1, hu]; rfl
    have hshows : (l.put v (put rest u x)).Shows hidden l.property := fun t ht => hs.1 t (by
      rwa [Link.put, type?_withField] at ht)
    by_cases hl : l.Fits v (put rest u x)
    · rcases ih hw' (hs.2 u hu) hrest with hfits | ⟨ks, ⟨pre, hpre⟩, hshort⟩
      · refine .inl fun t ht => ?_
        cases hu.symm.trans ht
        exact ⟨hfits, hl⟩
      · -- the set on this level keeps its elements
        refine .inr ⟨l :: ks, ⟨pre.map (l :: ·), ?_⟩,
          .inr ⟨?_, u.erase hidden, (put rest u x).erase hidden, hue, ?_, ?_, hshort⟩⟩
        · simp only [lasts, hue, Option.elim_some, ← List.cons_append, ← List.append_assoc, ← List.map_cons,
            ← List.map_append, hpre]
        · rw [hput, width_erase hs.1, width_erase hshows, Link.width, field_link_put hu hun]
          exact Strategy.width_put_of_fits hu hl
        · rw [hput, part?_erase hshows, part?_put_self hu hun (Strategy.Fits.firm hu hl)]
          rfl
        · rw [isEntity_erase, isEntity_put hw' hn hx]
    · have hlt : l.width ((put (l :: rest) v x).erase hidden) < l.width (v.erase hidden) := by
        rw [hput, width_erase hs.1, width_erase hshows, Link.width, field_link_put hu hun]
        exact Strategy.width_put_lt hu hl
      have hpos : l.strategy.position + 1 < l.width (v.erase hidden) := by
        rw [width_erase hs.1]
        exact Nat.lt_of_not_le fun hle => hl (hfirm.fits hu hle)
      refine .inr ⟨[l.last (v.erase hidden)], ?_, short_last hlt⟩
      rw [lasts_last, lasts, if_pos hpos]
      exact List.suffix_append _ _

/-- Where an erasure does not see a value that was put in place, no set on the way has dropped anything. -/
theorem fits_of_erase_eq (hw : at? ls v = some w) (hn : w.isEntity = true) (hs : Shown hidden ls v)
    (h : (put ls v x).erase hidden = v.erase hidden) : Fits ls v x := by
  induction ls generalizing v with
  | nil => trivial
  | cons l rest ih =>
    intro u hu
    have hw' : at? rest u = some w := by simpa [at?, hu] using hw
    have hun := isEntity_of_at? hw' hn
    simp only [put, hu, Option.elim_some] at h
    have hshows : (l.put v (put rest u x)).Shows hidden l.property := fun t ht => hs.1 t (by
      rwa [Link.put, type?_withField] at ht)
    have hfits : l.Fits v (put rest u x) := by
      by_contra hfits
      refine absurd (Strategy.width_put_lt hu hfits) (Nat.not_lt.2 (Nat.le_of_eq ?_))
      calc l.width v
          = l.width ((l.put v (put rest u x)).erase hidden) := by rw [h, width_erase hs.1]
        _ = l.strategy.width (l.strategy.put (v.field l.property) (put rest u x)) := by
            rw [width_erase hshows, Link.width, field_link_put hu hun]
    refine ⟨ih hw' (hs.2 u hu) ?_, hfits⟩
    have hpart := congrArg l.part? h
    rw [part?_erase hshows, part?_erase hs.1, hu, part?_put_self hu hun (Strategy.Fits.firm hu hfits)] at hpart
    exact Option.some.inj hpart

end Value

/-! ## Entities in order -/

/-- Where an element of a concatenation comes from, and what comes before it. -/
theorem flatMap_eq_append_cons {α β : Type} {f : α → List β} {l : List α} {xs ys : List β} {y : β}
    (h : l.flatMap f = xs ++ y :: ys) :
    ∃ pre a post inner outer, l = pre ++ a :: post ∧ f a = inner ++ y :: outer ∧ xs = pre.flatMap f ++ inner := by
  induction l generalizing xs with
  | nil => simp at h
  | cons a rest ih =>
    rw [List.flatMap_cons] at h
    rcases List.append_eq_append_iff.1 h with ⟨mid, rfl, hrest⟩ | ⟨mid, ha, hmid⟩
    · obtain ⟨pre, b, post, inner, outer, rfl, hb, rfl⟩ := ih hrest
      exact ⟨a :: pre, b, post, inner, outer, rfl, hb, by simp⟩
    · cases mid with
      | nil =>
        obtain ⟨pre, b, post, inner, outer, rfl, hb, hnil⟩ := @ih [] hmid.symm
        refine ⟨a :: pre, b, post, inner, outer, rfl, hb, ?_⟩
        rw [List.flatMap_cons, List.append_assoc, ← hnil, ha, List.append_nil, List.append_nil]
      | cons m mid =>
        cases hmid
        exact ⟨[], a, rest, xs, mid, rfl, ha, by simp⟩

/-- Before an element of a set come the elements at smaller positions. -/
theorem Property.before_setPosition {p : Property} {c v : Value} {i : Nat} {pre post : List (Strategy × Value)}
    (h : p.parts c = pre ++ (.setPosition i, v) :: post) :
    ∃ ordering elements, c = .set ordering elements ∧ elements[i]? = some v ∧
      ∀ j x, j < i → elements[j]? = some x → (.setPosition j, x) ∈ pre := by
  have hmem : (Strategy.setPosition i, v) ∈ p.parts c := by rw [h]; simp
  obtain ⟨ordering, elements, rfl, hparts⟩ : ∃ ordering elements, c = .set ordering elements ∧
      p.parts c = elements.zipIdx.map fun e => (.setPosition e.2, e.1) := by
    unfold parts at hmem ⊢
    split at hmem
    case h_4 ordering elements _ => exact ⟨ordering, elements, rfl, rfl⟩
    all_goals simp at hmem
  rw [hparts] at h
  have hget (j : Nat) : (pre ++ (Strategy.setPosition i, v) :: post)[j]? =
      elements[j]?.map fun x => (Strategy.setPosition j, x) := by
    rw [← h, List.getElem?_map, List.getElem?_zipIdx]
    cases elements[j]? <;> simp
  have hi := hget pre.length
  rw [List.getElem?_append_right (Nat.le_refl _), Nat.sub_self, List.getElem?_cons_zero] at hi
  obtain ⟨x, hx, heq⟩ := Option.map_eq_some_iff.1 hi.symm
  cases heq
  refine ⟨ordering, elements, rfl, hx, fun j y hj hy => List.mem_of_getElem? (i := j) ?_⟩
  rw [← List.getElem?_append_left hj, hget, hy]
  rfl

/-! ## Keys along links -/

/-- The key of the entity that links lead to. -/
def Schema.keyAlong (s : Schema) (R : Value) (ls : List Link) : Option (String × Value) := (R.at? ls).bind s.key?

/-- No element of a set up to a position is there twice, with another value there, if all keys differ. -/
theorem nodup_take_of_keys (schema : Schema) {elements : List Value} {i : Nat} {y : Value}
    (hkeys : ∀ j k a b, j < k → k < i → elements[j]? = some a → elements[k]? = some b → schema.key? a ≠ schema.key? b)
    (hy : ∀ j a, j < i → elements[j]? = some a → schema.key? a ≠ schema.key? y) : (elements.take i ++ [y]).Nodup := by
  have hget {j : Nat} {a : Value} (h : (elements.take i)[j]? = some a) : j < i ∧ elements[j]? = some a := by
    have hj : j < i := by
      by_contra hle
      rw [List.getElem?_take_eq_none (Nat.le_of_not_lt hle)] at h
      cases h
    exact ⟨hj, by rwa [List.getElem?_take_of_lt hj] at h⟩
  refine List.nodup_append.2 ⟨List.pairwise_iff_getElem.2 fun j k hj hk hjk heq => ?_, by simp, fun a ha b hb heq => ?_⟩
  · obtain ⟨-, hja⟩ := hget (List.getElem?_eq_getElem hj)
    obtain ⟨hki, hkb⟩ := hget (List.getElem?_eq_getElem hk)
    exact hkeys j k _ _ hjk hki hja hkb (congrArg _ heq)
  · obtain ⟨j, hj⟩ := List.getElem?_of_mem ha
    obtain ⟨hji, hja⟩ := hget hj
    rw [List.mem_singleton.1 hb] at heq
    exact hy j a hji hja (congrArg _ heq)

section Firm

variable {done : List (List Link)} {ls : List Link} {R x : Value}

/-- Where the entities that lead to a place have different keys, no set drops an element up to there for an entity with
another key. -/
theorem Leads.firm (h : Leads done ls) (hs : Value.Shown schema.isId ls R)
    (hinj : ∀ ms ∈ done, ∀ ks ∈ done, schema.keyAlong R ms = schema.keyAlong R ks → ms = ks)
    (hnew : ∀ ms ∈ done, schema.keyAlong R ms ≠ schema.key? x) : Value.Firm ls R x := by
  suffices hrest : ∀ rest pre w, ls = pre ++ rest → R.at? pre = some w → Value.Shown schema.isId rest w →
      Value.Firm rest w x from hrest ls [] R rfl rfl hs
  intro rest
  induction rest with
  | nil => exact fun _ _ _ _ _ => trivial
  | cons l rest ih =>
    intro pre w heq hw hshown u hu
    have hat {m : Link} {v : Value} (hv : m.part? w = some v) : R.at? (pre ++ [m]) = some v := by
      rw [Value.at?_append, hw, Option.bind_some, Value.at?, hv]
      rfl
    have hkey {m : Link} {v : Value} (hv : m.part? w = some v) : schema.keyAlong R (pre ++ [m]) = schema.key? v := by
      rw [Schema.keyAlong, hat hv, Option.bind_some]
    refine ⟨ih (pre ++ [l]) u (by simpa using heq) (hat hu) (hshown.2 u hu), ?_⟩
    obtain ⟨property, place⟩ := l
    cases place with
    | direct | mapKey _ | listIndex _ | known _ => trivial
    | setPosition i =>
      cases hc : w.field property with
      | set ordering elements =>
        have hpart {j : Nat} {a : Value} (ha : elements[j]? = some a) :
            (⟨property, .setPosition j⟩ : Link).part? w = some a := by
          rw [Link.part?, hc]
          exact ha
        have hsmaller {j : Nat} (hj : j < i) : pre ++ [⟨property, .setPosition j⟩] ∈ done :=
          h.smaller pre _ rest heq i rfl j hj
        have hplace {j k : Nat} (heq : pre ++ [(⟨property, .setPosition j⟩ : Link)] = pre ++ [⟨property, .setPosition k⟩]) :
            j = k := by simpa using heq
        rw [Link.Firm, hc]
        refine nodup_take_of_keys schema (fun j k a b hjk hk ha hb hab => hjk.ne (hplace ?_)) fun j a hj ha hab => ?_
        · exact hinj _ (hsmaller (hjk.trans hk)) _ (hsmaller hk) (by rw [hkey (hpart ha), hkey (hpart hb), hab])
        · cases rest with
          | nil => exact hnew _ (hsmaller hj) ((hkey (hpart ha)).trans hab)
          | cons m rest =>
            -- the value on the way keeps its key
            rw [Schema.key?_put_cons (hshown.2 u hu).1] at hab
            have habove : pre ++ [⟨property, .setPosition i⟩] ∈ done := h.above _ m rest (by simpa using heq)
            exact hj.ne (hplace (hinj _ (hsmaller hj) _ habove (by rw [hkey (hpart ha), hkey hu, hab])))
      | _ => rw [Link.Firm, hc]; trivial

end Firm

/-! ## What comes before and what comes late -/

namespace Occurrence

/-- Where the entities below an occurrence are listed, what leads to one of them comes before it. -/
theorem leads {b o : Occurrence} {before after : List Occurrence} {done : List (List Link)}
    (hall : b.all schema = before ++ o :: after) (hb : Leads done b.node.links)
    (hdone : ∀ p ∈ before, p.node.links ∈ done) : Leads done o.node.links := by
  induction b using Occurrence.induction schema generalizing before after with
  | step b ih =>
    rw [all_eq] at hall
    cases before with
    | nil =>
      cases hall
      exact hb
    | cons first before =>
      obtain ⟨rfl, hbelow⟩ := List.cons.inj hall
      rw [List.forall_mem_cons] at hdone
      obtain ⟨pre, c, post, inner, outer, hchildren, hc, rfl⟩ := flatMap_eq_append_cons hbelow
      rw [List.forall_mem_append] at hdone
      obtain ⟨hself, hpre, hinner⟩ := hdone
      have hcb : c ∈ b.children schema := by rw [hchildren]; simp
      refine ih c hcb hc ?_ hinner
      cases he : schema.typeOf? b.value with
      | none => simp [children, he] at hchildren
      | some e =>
        simp only [children, he] at hchildren
        obtain ⟨_, r, _, cpre, _, -, hby, rfl⟩ := flatMap_eq_append_cons hchildren
        obtain ⟨ppre, prest, hparts, rfl, hrest⟩ := List.map_eq_append_iff.1 hby
        obtain ⟨⟨place, v⟩, ppost, rfl, rfl, -⟩ := List.map_eq_cons_iff.1 hrest
        refine hb.concat hself fun i hi k hk => ?_
        -- the elements at smaller positions come before in the same set
        cases (show place = .setPosition i from hi)
        obtain ⟨_, elements, _, hat, hbefore⟩ := Property.before_setPosition hparts
        obtain ⟨hlt, -⟩ := List.getElem?_eq_some_iff.1 hat
        have hmem := hbefore k _ hk (List.getElem?_eq_getElem (hk.trans hlt))
        exact hpre _ (List.mem_flatMap.2 ⟨_, List.mem_append_right _ (List.mem_map_of_mem hmem), mem_all_self⟩)

theorem sublist_flatMap_all (xs : List Occurrence) : xs.Sublist (xs.flatMap (all schema)) := by
  induction xs with
  | nil => exact .slnil
  | cons x rest ih =>
    rw [List.flatMap_cons, all_eq, List.cons_append]
    exact (ih.trans (List.sublist_append_right _ _)).cons_cons _

/-- An occurrence and those below it are followed by the last elements of the sets on their way. -/
theorem trailing_all (hs : hidden.Spares schema) {R : Value} (hR : R.Ordered hidden) {origin : Nat} {o : Occurrence}
    {later : List (List Link)} (ho : Occurs schema origin (R.erase hidden) o)
    (hl : (lasts o.node.links (R.erase hidden)).Sublist later) : Trailing (R.erase hidden) later (o.all schema) := by
  induction o using Occurrence.induction schema generalizing later with
  | step o ih =>
    rw [all_eq]
    refine ⟨hl.trans (List.sublist_append_right _ _), ?_⟩
    have hall {cs : List Occurrence} (hcs : ∀ c ∈ cs, c ∈ o.children schema) (ht : Trailing (R.erase hidden) later cs) :
        Trailing (R.erase hidden) later (cs.flatMap (all schema)) := by
      induction cs with
      | nil => trivial
      | cons c rest ihr =>
        rw [List.forall_mem_cons] at hcs
        rw [List.flatMap_cons]
        refine Trailing.append (ih c hcs.1 (ho.child hcs.1) (ht.1.trans ?_)) (ihr hcs.2 ht.2)
        exact ((sublist_flatMap_all rest).map _).append_right _
    exact hall (fun _ => id) (trailing_children (ho.at?_links hs hR) hl)

end Occurrence

end Aggregate
