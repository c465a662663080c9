import Mathlib
import Aggregate.Proofs.Erasure
import Aggregate.Value.Form

/-!
# Values as documents, there and back

Which values have a form as a document, and that reading the form gives the value back.

- `Value.Gathers`: a function that carries out another one on all members of a list. The forms of items, fields and
  entries are written and read by such functions, so `Gathers.isSome_iff` and `Gathers.reads` are said once;
- `Value.Within`: a value stands inside another one, at any depth, map keys included;
- `Value.isSome_toData?_iff`: a value has a form if and only if the maps within it have no key but `null`;
- `Value.ofData?_of_toData?`: reading undoes writing.
-/

namespace Aggregate.Value

/-! ## Functions on lists -/

section Gathering

variable {α β : Type} {f : α → Option β} {g : List α → Option (List β)} {as : List α} {bs : List β}

/-- `g` answers what `f` answers on all members of a list, if `f` answers on each. -/
structure Gathers (f : α → Option β) (g : List α → Option (List β)) : Prop where
  nil : g [] = some []
  cons : ∀ a as, g (a :: as) = (f a).bind fun b => (g as).map (b :: ·)

theorem Gathers.cons_eq_some_iff (h : Gathers f g) {a : α} :
    g (a :: as) = some bs ↔ ∃ b rest, f a = some b ∧ g as = some rest ∧ bs = b :: rest := by
  simp only [h.cons, Option.bind_eq_some_iff, Option.map_eq_some_iff, ← exists_and_left, eq_comm (a := bs)]

theorem Gathers.isSome_iff (h : Gathers f g) : (g as).isSome ↔ ∀ a ∈ as, (f a).isSome := by
  induction as with
  | nil => simp [h.nil]
  | cons a as ih =>
    rw [List.forall_mem_cons, ← ih, h.cons]
    cases f a <;> simp

/-- If reading undoes writing on all members of a list, then on the list. -/
theorem Gathers.reads {f' : β → Option α} {g' : List β → Option (List α)} (h : Gathers f g) (h' : Gathers f' g')
    (hread : ∀ a ∈ as, ∀ b, f a = some b → f' b = some a) (hbs : g as = some bs) : g' bs = some as := by
  induction as generalizing bs with
  | nil =>
    rw [h.nil] at hbs
    cases hbs
    exact h'.nil
  | cons a as ih =>
    obtain ⟨hfirst, hrest⟩ := List.forall_mem_cons.1 hread
    obtain ⟨b, rest, hb, htail, rfl⟩ := h.cons_eq_some_iff.1 hbs
    exact h'.cons_eq_some_iff.2 ⟨a, as, hfirst b hb, ih hrest htail, rfl⟩

end Gathering

theorem gathers_toDataAll? : Gathers toData? toDataAll? where
  nil := rfl
  cons v vs := by rw [toDataAll?]; cases v.toData? <;> cases toDataAll? vs <;> rfl

theorem gathers_toDataFields? : Gathers toDataField? toDataFields? where
  nil := rfl
  cons f fs := by rw [toDataFields?]; cases toDataField? f <;> cases toDataFields? fs <;> rfl

theorem gathers_toDataEntries? : Gathers toDataEntry? toDataEntries? where
  nil := rfl
  cons e es := by rw [toDataEntries?]; cases toDataEntry? e <;> cases toDataEntries? es <;> rfl

theorem gathers_ofAll? : Gathers ofData? ofAll? where
  nil := rfl
  cons d ds := by rw [ofAll?]; cases ofData? d <;> cases ofAll? ds <;> rfl

theorem gathers_ofFields? : Gathers ofField? ofFields? where
  nil := rfl
  cons f fs := by rw [ofFields?]; cases ofField? f <;> cases ofFields? fs <;> rfl

theorem gathers_ofEntries? : Gathers ofEntry? ofEntries? where
  nil := rfl
  cons e es := by rw [ofEntries?]; cases ofEntry? e <;> cases ofEntries? es <;> rfl

/-! ## Which values have a form -/

/-- A value is another one or stands inside it, at any depth. -/
inductive Within (w : Value) : Value → Prop
  | self : Within w w
  | field {type : String} {fields : List (String × Value)} {f : String × Value} (hf : f ∈ fields) (h : Within w f.2) :
    Within w (entity type fields)
  | item {items : List Value} {v : Value} (hv : v ∈ items) (h : Within w v) : Within w (list items)
  | element {ordering : SetOrdering} {elements : List Value} {v : Value} (hv : v ∈ elements) (h : Within w v) :
    Within w (set ordering elements)
  | key {entries : List (Value × Value)} {e : Value × Value} (he : e ∈ entries) (h : Within w e.1) :
    Within w (map entries)
  | entry {entries : List (Value × Value)} {e : Value × Value} (he : e ∈ entries) (h : Within w e.2) :
    Within w (map entries)

theorem isSome_toDataField? {f : String × Value} : (toDataField? f).isSome ↔ f.2.toData?.isSome := by
  rw [toDataField?, Option.isSome_map]

/-- An entry has a form if its key is `null` and its value has a form. -/
theorem isSome_toDataEntry_iff {e : Value × Value} : ( toDataEntry? e).isSome ↔ e.1 = null ∧ e.2.toData?.isSome := by
  obtain ⟨k, v⟩ := e
  cases k <;> simp [ toDataEntry?]

theorem isSome_toData?_entity {type : String} {fields : List (String × Value)} :
    (entity type fields).toData?.isSome ↔ ∀ f ∈ fields, f.2.toData?.isSome := by
  simp only [toData?, Option.isSome_map, gathers_toDataFields?.isSome_iff, isSome_toDataField?]

theorem isSome_toData?_list {items : List Value} : (list items).toData?.isSome ↔ ∀ v ∈ items, v.toData?.isSome := by
  simp only [toData?, Option.isSome_map, gathers_toDataAll?.isSome_iff]

theorem isSome_toData?_set {ordering : SetOrdering} {elements : List Value} :
    (set ordering elements).toData?.isSome ↔ ∀ v ∈ elements, v.toData?.isSome := by
  simp only [toData?, Option.isSome_map, gathers_toDataAll?.isSome_iff]

theorem isSome_toData?_map {entries : List (Value × Value)} :
    (map entries).toData?.isSome ↔ ∀ e ∈ entries, e.1 = null ∧ e.2.toData?.isSome := by
  simp only [toData?, Option.isSome_map, gathers_toDataEntries?.isSome_iff, isSome_toDataEntry_iff]

/-- What stands within a value that has a form has a form too. -/
theorem Within.isSome_toData? {w v : Value} (h : Within w v) (hv : v.toData?.isSome) : w.toData?.isSome := by
  induction h with
  | self => exact hv
  | field hf _ ih => exact ih (isSome_toData?_entity.1 hv _ hf)
  | item hx _ ih => exact ih (isSome_toData?_list.1 hv _ hx)
  | element hx _ ih => exact ih (isSome_toData?_set.1 hv _ hx)
  | key he _ ih =>
    refine ih ?_
    rw [(isSome_toData?_map.1 hv _ he).1]
    rfl
  | entry he _ ih => exact ih (isSome_toData?_map.1 hv _ he).2

theorem isSome_toData?_iff (v : Value) :
    v.toData?.isSome ↔ ∀ entries, Within (map entries) v → ∀ e ∈ entries, e.1 = null := by
  refine ⟨fun hv entries h e he => (isSome_toData?_map.1 (h.isSome_toData? hv) e he).1, fun h => ?_⟩
  induction v using induction with
  | null | bool _ | int _ | text _ => rfl
  | entity type fields ih =>
    exact isSome_toData?_entity.2 fun f hf => ih f hf fun es hes => h es (.field hf hes)
  | list items ih => exact isSome_toData?_list.2 fun v hv => ih v hv fun es hes => h es (.item hv hes)
  | set ordering elements ih => exact isSome_toData?_set.2 fun v hv => ih v hv fun es hes => h es (.element hv hes)
  | map entries ih =>
    exact isSome_toData?_map.2 fun e he => ⟨h entries .self e he, ih e he fun es hes => h es (.entry he hes)⟩

/-! ## Reading a form -/

theorem ofInt?_toInt (n : Int64) : ofInt? n.toInt = some (int n) := by
  have hmin : -(Word.half : Int) ≤ n.toInt := n.le_toInt
  have hmax : n.toInt < Word.half := n.toInt_lt
  have hholds : Word.holdsSigned n.toInt = true := by simp [Word.holdsSigned, hmin, hmax]
  have hback : Int64.ofInt n.toInt = n := Int64.toInt.inj (Int64.toInt_ofInt_of_le n.le_toInt n.toInt_lt)
  rw [ofInt?, if_pos hholds, hback]

theorem orderingOf?_name (ordering : SetOrdering) : orderingOf? (.text ordering.name) = some ordering := by
  cases ordering <;> rfl

theorem ofField?_of_toDataField? {f : String × Value} {d : String × Data} (hf : toDataField? f = some d)
    (hread : ∀ d, f.2.toData? = some d → ofData? d = some f.2) : ofField? d = some f := by
  obtain ⟨name, v⟩ := f
  obtain ⟨d, hd, rfl⟩ := Option.map_eq_some_iff.1 hf
  rw [ofField?, hread d hd]
  rfl

theorem ofEntry_of_toDataEntry {e : Value × Value} {d : String × Data} (he : toDataEntry? e = some d)
    (hread : ∀ d, e.2.toData? = some d → ofData? d = some e.2) : ofEntry? d = some e := by
  obtain ⟨k, v⟩ := e
  obtain rfl : k = null := (isSome_toDataEntry_iff.1 (by rw [he]; rfl)).1
  obtain ⟨d, hd, rfl⟩ := Option.map_eq_some_iff.1 he
  rw [ ofEntry?, hread d hd]
  rfl

/-- Reading undoes writing. -/
theorem ofData?_of_toData? {v : Value} (h : v.Canonical) {d : Data} (hd : v.toData? = some d) :
    ofData? d = some v := by
  induction v using induction generalizing d with
  | null | bool _ | text _ =>
    cases hd
    rfl
  | int n =>
    cases hd
    exact ofInt?_toInt n
  | entity type fields ih =>
    obtain ⟨ds, hds, rfl⟩ := Option.map_eq_some_iff.1 hd
    have hfields : ofFields? ds = some fields := gathers_toDataFields?.reads gathers_ofFields? (fun f hf d hd =>
      ofField?_of_toDataField? hd fun d => ih f hf (everywhereFields_iff.1 h.2 f hf rfl)) hds
    have horder : Keyed.Ascending fields := h.1
    simp [ofData?, ofVariant?, entityParts?, entityPart?, Part.add, hfields, Keyed.ofList_eq_self horder]
  | list items ih =>
    obtain ⟨ds, hds, rfl⟩ := Option.map_eq_some_iff.1 hd
    have hitems : ofAll? ds = some items := gathers_toDataAll?.reads gathers_ofAll? (fun v hv d =>
      ih v hv (everywhereAll_iff.1 h.2 v hv)) hds
    simp [ofData?, ofVariant?, hitems]
  | set ordering elements ih =>
    obtain ⟨ds, hds, rfl⟩ := Option.map_eq_some_iff.1 hd
    have helements : ofAll? ds = some elements := gathers_toDataAll?.reads gathers_ofAll? (fun v hv d =>
      ih v hv (everywhereAll_iff.1 h.2 v hv)) hds
    simp [ofData?, ofVariant?, setParts?, setPart?, Part.add, orderingOf?_name, helements]
  | map entries ih =>
    obtain ⟨ds, hds, rfl⟩ := Option.map_eq_some_iff.1 hd
    have hentries : ofEntries? ds = some entries := gathers_toDataEntries?.reads gathers_ofEntries? (fun e he d hd =>
      ofEntry_of_toDataEntry hd fun d => ih e he (everywhereEntries_iff.1 h.2 e he)) hds
    have horder : Keyed.Ascending entries := h.1
    simp [ofData?, ofVariant?, hentries, Keyed.ofList_eq_self horder]

/-- A value can be written as a document if and only if no map within it, at any depth, has another key than `null`.
Reading what was written gives the same value, sets with their elements as they stand, in any order and repeated. -/
theorem form_lossless (v : Value) (h : v.Canonical) :
    (v.toData?.isSome ↔ ∀ entries, Within (map entries) v → ∀ e ∈ entries, e.1 = null) ∧
      ∀ d, v.toData? = some d → ofData? d = some v :=
  ⟨isSome_toData?_iff v, fun _ => ofData?_of_toData? h⟩

/-- A map under `null` to a sorted set that is out of order and holds an element twice, among the fields of an entity. -/
def crate : Value :=
  entity "Crate" [("label", text "Null"), ("stock", map [(null, set .sorted [int 2, int Int64.minValue, list [], int 2])])]

theorem crate_form_lossless : crate.Canonical ∧ crate.toData?.isSome ∧
    (∀ entries, Within (map entries) crate → ∀ e ∈ entries, e.1 = null) ∧
    ∃ d, crate.toData? = some d ∧ ofData? d = some crate := by
  have hcanonical : crate.Canonical := by decide
  have hsome : crate.toData?.isSome := by decide
  obtain ⟨d, hd⟩ := Option.isSome_iff_exists.1 hsome
  obtain ⟨hmaps, hread⟩ := form_lossless crate hcanonical
  exact ⟨hcanonical, hsome, hmaps.1 hsome, d, hd, hread d hd⟩

end Aggregate.Value
