import Mathlib
import Aggregate.Proofs.Keyed

/-!
# Values up to labels and hidden fields

- `Value.induction`: induction over values with a hypothesis for each value inside;
- `Value.erase`: a value without some of its fields and with all sets in order of insertion; `Value.unlabel` forgets
  the orderings of sets only. Map keys stay as they are;
- `Value.Everywhere`: a property of a value and of all values inside it, with its instances `Value.Canonical` (fields
  and entries in order of their keys) and `Value.SetsNodup` (no set holds an element twice);
- `Value.eraseFields_insert_of_hidden`, `Value.eraseFields_insert_of_lookup`: which writes of a field an erasure does not
  see.
-/

namespace Aggregate.Value

/-! ## Induction -/

/-- Induction over values: a value has a property if it inherits it from the values inside. -/
@[elab_as_elim]
theorem induction {P : Value → Prop} (null : P .null) (bool : ∀ b, P (.bool b)) (int : ∀ n, P (.int n))
    (text : ∀ s, P (.text s)) (entity : ∀ type fields, (∀ f ∈ fields, P f.2) → P (.entity type fields))
    (list : ∀ items, (∀ v ∈ items, P v) → P (.list items))
    (set : ∀ ordering elements, (∀ v ∈ elements, P v) → P (.set ordering elements))
    (map : ∀ entries, (∀ e ∈ entries, P e.2) → P (.map entries)) (v : Value) : P v := by
  refine @Value.rec P (fun fields => ∀ f ∈ fields, P f.2) (fun vs => ∀ v ∈ vs, P v) (fun entries => ∀ e ∈ entries, P e.2)
    (fun f => P f.2) (fun e => P e.2) null bool int text entity list set map ?_ ?_ ?_ ?_ ?_ ?_ ?_ ?_ v
  · exact fun _ h => absurd h List.not_mem_nil
  · exact fun _ _ hf hrest => List.forall_mem_cons.2 ⟨hf, hrest⟩
  · exact fun _ h => absurd h List.not_mem_nil
  · exact fun _ _ hv hrest => List.forall_mem_cons.2 ⟨hv, hrest⟩
  · exact fun _ h => absurd h List.not_mem_nil
  · exact fun _ _ he hrest => List.forall_mem_cons.2 ⟨he, hrest⟩
  · exact fun _ _ hv => hv
  · exact fun _ _ _ hv => hv

/-! ## Erasure -/

/-- Tells fields to leave out, by the type of the entity and the name of the field. -/
abbrev Hidden := String → String → Bool

section Erase

variable (hidden : Hidden)

mutual

/-- The value without the hidden fields of its entities, and with all its sets in order of insertion. -/
def erase : Value → Value
  | null => null
  | bool b => bool b
  | int n => int n
  | text s => text s
  | entity type fields => entity type (eraseFields type fields)
  | list items => list (eraseAll items)
  | set _ elements => set .linked (eraseAll elements)
  | map entries => map (eraseEntries entries)
termination_by structural v => v

/-- Several values, each erased. -/
def eraseAll : List Value → List Value
  | [] => []
  | v :: rest => v.erase :: eraseAll rest
termination_by structural vs => vs

/-- A field with its value erased. -/
def eraseField : String × Value → String × Value
  | (name, v) => (name, v.erase)
termination_by structural f => f

/-- The fields of an entity of a type that are not hidden, each erased. -/
def eraseFields (type : String) : List (String × Value) → List (String × Value)
  | [] => []
  | f :: rest => if hidden type f.1 then eraseFields type rest else eraseField f :: eraseFields type rest
termination_by structural fs => fs

/-- A map entry with its value erased. -/
def eraseEntry : Value × Value → Value × Value
  | (k, v) => (k, v.erase)
termination_by structural e => e

/-- Several map entries, each erased. -/
def eraseEntries : List (Value × Value) → List (Value × Value)
  | [] => []
  | e :: rest => eraseEntry e :: eraseEntries rest
termination_by structural es => es

end

end Erase

/-- The value with all its sets in order of insertion. -/
def unlabel (v : Value) : Value := v.erase fun _ _ => false

variable {hidden : Hidden}

theorem eraseAll_eq_map (vs : List Value) : eraseAll hidden vs = vs.map (erase hidden) := by
  induction vs with
  | nil => rfl
  | cons v rest ih => rw [eraseAll, ih, List.map_cons]

theorem eraseEntries_eq_map (es : List (Value × Value)) :
    eraseEntries hidden es = es.map fun e => (e.1, e.2.erase hidden) := by
  induction es with
  | nil => rfl
  | cons e rest ih =>
    obtain ⟨k, v⟩ := e
    rw [eraseEntries, ih, List.map_cons, eraseEntry]

theorem eraseFields_eq_map (type : String) (fs : List (String × Value)) :
    eraseFields hidden type fs = (fs.filter fun f => !hidden type f.1).map fun f => (f.1, f.2.erase hidden) := by
  induction fs with
  | nil => rfl
  | cons f rest ih =>
    obtain ⟨n, v⟩ := f
    rw [eraseFields, ih]
    cases h : hidden type n <;> simp [h, eraseField]

theorem eraseFields_append (type : String) (fs gs : List (String × Value)) :
    eraseFields hidden type (fs ++ gs) = eraseFields hidden type fs ++ eraseFields hidden type gs := by
  simp [eraseFields_eq_map]

@[simp] theorem type?_erase (v : Value) : (v.erase hidden).type? = v.type? := by
  cases v <;> rfl

theorem lookup_eraseFields {type name : String} (h : hidden type name = false) (fs : List (String × Value)) :
    (eraseFields hidden type fs).lookup name = (fs.lookup name).map (erase hidden) := by
  induction fs with
  | nil => rfl
  | cons f rest ih =>
    obtain ⟨n, v⟩ := f
    by_cases hn : name = n
    · subst hn
      simp [eraseFields, eraseField, h]
    · simp only [eraseFields, eraseField]
      split <;> simp [List.lookup_cons, beq_false_of_ne hn, ih]

theorem get_eraseFields {type name : String} (h : hidden type name = false) (fs : Fields) :
    Fields.get (eraseFields hidden type fs) name = (fs.get name).erase hidden := by
  unfold Fields.get
  rw [lookup_eraseFields h]
  cases fs.lookup name <;> rfl

/-- An erasure does not see writes of hidden fields. -/
theorem eraseFields_insert_of_hidden {type name : String} (h : hidden type name = true) (x : Value)
    (fs : List (String × Value)) :
    eraseFields hidden type (Keyed.insert name x fs) = eraseFields hidden type fs := by
  induction fs with
  | nil => simp [Keyed.insert, eraseFields, h]
  | cons f rest ih =>
    obtain ⟨n, v⟩ := f
    simp only [Keyed.insert]
    split
    · simp [eraseFields, h]
    · rename_i hn
      rw [← Std.LawfulEqOrd.eq_of_compare hn]
      simp [eraseFields, h]
    · simp [eraseFields, ih]

/-- An erasure does not see writes of a field whose value it does not see change. -/
theorem eraseFields_insert_of_lookup {type name : String} {fs : List (String × Value)} {v x : Value}
    (ha : Keyed.Ascending fs) (hl : fs.lookup name = some v) (hx : x.erase hidden = v.erase hidden) :
    eraseFields hidden type (Keyed.insert name x fs) = eraseFields hidden type fs := by
  obtain ⟨pre, post, rfl, -⟩ := List.lookup_eq_some_iff.1 hl
  rw [Keyed.insert_of_split ha]
  simp [eraseFields_append, eraseFields, eraseField, hx]

theorem Hidden.eq_false_of_le {more : Hidden} (h : hidden ≤ more) {type name : String} (hm : more type name = false) :
    hidden type name = false := by
  cases hh : hidden type name with
  | false => rfl
  | true =>
    have hle := h type name
    rw [hh, hm] at hle
    exact absurd hle (show ¬ (true : Bool) ≤ false by decide)

/-- Erasing less before erasing more makes no difference. -/
theorem erase_erase {more : Hidden} (h : hidden ≤ more) (v : Value) : (v.erase hidden).erase more = v.erase more := by
  induction v using induction with
  | null | bool _ | int _ | text _ => rfl
  | entity type fields ih =>
    have hkeep (f : String × Value) : (!more type f.1 && !hidden type f.1) = !more type f.1 := by
      cases hm : more type f.1 with
      | false => simp [Hidden.eq_false_of_le h hm]
      | true => rfl
    simp only [erase, eraseFields_eq_map, List.filter_map, List.map_map, Function.comp_def, List.filter_filter, hkeep]
    congr 1
    exact List.map_congr_left fun f hf => by rw [ih f (List.mem_of_mem_filter hf)]
  | list items ih =>
    simp only [erase, eraseAll_eq_map, List.map_map]
    congr 1
    exact List.map_congr_left ih
  | set ordering elements ih =>
    simp only [erase, eraseAll_eq_map, List.map_map]
    congr 1
    exact List.map_congr_left ih
  | map entries ih =>
    simp only [erase, eraseEntries_eq_map, List.map_map, Function.comp_def]
    congr 1
    exact List.map_congr_left fun e he => by rw [ih e he]

theorem unlabel_unlabel (v : Value) : v.unlabel.unlabel = v.unlabel := erase_erase le_rfl v

theorem erase_eq_of_le {more : Hidden} (h : hidden ≤ more) {v w : Value} (he : v.erase hidden = w.erase hidden) :
    v.erase more = w.erase more := by
  rw [← erase_erase h v, he, erase_erase h]

/-! ## Properties of all values inside -/

section Everywhere

variable (hidden : Hidden) (P : Value → Prop)

mutual

/-- A value and all values inside it have a property; hidden fields do not count. -/
def Everywhere : Value → Prop
  | null => P null
  | bool b => P (bool b)
  | int n => P (int n)
  | text s => P (text s)
  | entity type fields => P (entity type fields) ∧ EverywhereFields type fields
  | list items => P (list items) ∧ EverywhereAll items
  | set ordering elements => P (set ordering elements) ∧ EverywhereAll elements
  | map entries => P (map entries) ∧ EverywhereEntries entries
termination_by structural v => v

/-- Several values and all values inside them have a property. -/
def EverywhereAll : List Value → Prop
  | [] => True
  | v :: rest => v.Everywhere ∧ EverywhereAll rest
termination_by structural vs => vs

/-- The value of a field and all values inside it have a property. -/
def EverywhereField : String × Value → Prop
  | (_, v) => v.Everywhere
termination_by structural f => f

/-- The values of the fields that are not hidden and all values inside them have a property. -/
def EverywhereFields (type : String) : List (String × Value) → Prop
  | [] => True
  | f :: rest => (hidden type f.1 = false → EverywhereField f) ∧ EverywhereFields type rest
termination_by structural fs => fs

/-- The value of a map entry and all values inside it have a property. -/
def EverywhereEntry : Value × Value → Prop
  | (_, v) => v.Everywhere
termination_by structural e => e

/-- The values of several map entries and all values inside them have a property. -/
def EverywhereEntries : List (Value × Value) → Prop
  | [] => True
  | e :: rest => EverywhereEntry e ∧ EverywhereEntries rest
termination_by structural es => es

end

variable [DecidablePred P]

mutual

/-- Whether a property that can be decided holds everywhere can be decided. -/
def decEverywhere : (v : Value) → Decidable (v.Everywhere hidden P)
  | null => inferInstanceAs (Decidable (P null))
  | bool b => inferInstanceAs (Decidable (P (bool b)))
  | int n => inferInstanceAs (Decidable (P (int n)))
  | text s => inferInstanceAs (Decidable (P (text s)))
  | entity type fields =>
    have := decEverywhereFields type fields
    inferInstanceAs (Decidable (P (entity type fields) ∧ EverywhereFields hidden P type fields))
  | list items =>
    have := decEverywhereAll items
    inferInstanceAs (Decidable (P (list items) ∧ EverywhereAll hidden P items))
  | set ordering elements =>
    have := decEverywhereAll elements
    inferInstanceAs (Decidable (P (set ordering elements) ∧ EverywhereAll hidden P elements))
  | map entries =>
    have := decEverywhereEntries entries
    inferInstanceAs (Decidable (P (map entries) ∧ EverywhereEntries hidden P entries))
termination_by structural v => v

/-- The same for several values. -/
def decEverywhereAll : (vs : List Value) → Decidable (EverywhereAll hidden P vs)
  | [] => inferInstanceAs (Decidable True)
  | v :: rest =>
    have := decEverywhere v
    have := decEverywhereAll rest
    inferInstanceAs (Decidable (v.Everywhere hidden P ∧ EverywhereAll hidden P rest))
termination_by structural vs => vs

/-- The same for the value of a field. -/
def decEverywhereField : (f : String × Value) → Decidable (EverywhereField hidden P f)
  | (_, v) => decEverywhere v
termination_by structural f => f

/-- The same for the fields of an entity. -/
def decEverywhereFields (type : String) : (fs : List (String × Value)) → Decidable (EverywhereFields hidden P type fs)
  | [] => inferInstanceAs (Decidable True)
  | f :: rest =>
    have := decEverywhereField f
    have := decEverywhereFields type rest
    inferInstanceAs (Decidable ((hidden type f.1 = false → EverywhereField hidden P f) ∧
      EverywhereFields hidden P type rest))
termination_by structural fs => fs

/-- The same for the value of a map entry. -/
def decEverywhereEntry : (e : Value × Value) → Decidable (EverywhereEntry hidden P e)
  | (_, v) => decEverywhere v
termination_by structural e => e

/-- The same for the entries of a map. -/
def decEverywhereEntries : (es : List (Value × Value)) → Decidable (EverywhereEntries hidden P es)
  | [] => inferInstanceAs (Decidable True)
  | e :: rest =>
    have := decEverywhereEntry e
    have := decEverywhereEntries rest
    inferInstanceAs (Decidable (EverywhereEntry hidden P e ∧ EverywhereEntries hidden P rest))
termination_by structural es => es

end

instance : DecidablePred (Everywhere hidden P) := decEverywhere hidden P

end Everywhere

variable {P : Value → Prop}

theorem everywhereAll_iff {vs : List Value} : EverywhereAll hidden P vs ↔ ∀ v ∈ vs, v.Everywhere hidden P := by
  induction vs with
  | nil => simp [EverywhereAll]
  | cons v rest ih => simp [EverywhereAll, ih]

theorem everywhereFields_iff {type : String} {fs : List (String × Value)} :
    EverywhereFields hidden P type fs ↔ ∀ f ∈ fs, hidden type f.1 = false → f.2.Everywhere hidden P := by
  induction fs with
  | nil => simp [EverywhereFields]
  | cons f rest ih =>
    obtain ⟨n, v⟩ := f
    simp only [EverywhereFields, ih, EverywhereField, List.forall_mem_cons]

theorem everywhereEntries_iff {es : List (Value × Value)} :
    EverywhereEntries hidden P es ↔ ∀ e ∈ es, e.2.Everywhere hidden P := by
  induction es with
  | nil => simp [EverywhereEntries]
  | cons e rest ih =>
    obtain ⟨k, v⟩ := e
    simp only [EverywhereEntries, ih, EverywhereEntry, List.forall_mem_cons]

theorem Everywhere.self {v : Value} (h : v.Everywhere hidden P) : P v := by
  cases v <;> first | exact h | exact h.1

/-- Hiding more fields asks for less. -/
theorem Everywhere.mono {more : Hidden} (hle : hidden ≤ more) {v : Value} (h : v.Everywhere hidden P) :
    v.Everywhere more P := by
  induction v using induction with
  | null | bool _ | int _ | text _ => exact h
  | entity type fields ih =>
    refine ⟨h.1, everywhereFields_iff.2 fun f hf hm => ih f hf ?_⟩
    exact everywhereFields_iff.1 h.2 f hf (Hidden.eq_false_of_le hle hm)
  | list items ih => exact ⟨h.1, everywhereAll_iff.2 fun v hv => ih v hv (everywhereAll_iff.1 h.2 v hv)⟩
  | set ordering elements ih => exact ⟨h.1, everywhereAll_iff.2 fun v hv => ih v hv (everywhereAll_iff.1 h.2 v hv)⟩
  | map entries ih => exact ⟨h.1, everywhereEntries_iff.2 fun e he => ih e he (everywhereEntries_iff.1 h.2 e he)⟩

theorem Everywhere.hide {v : Value} (h : v.Everywhere (fun _ _ => false) P) : v.Everywhere hidden P :=
  h.mono fun _ _ => Bool.false_le _

/-- The fields of an entity, or the entries of a map, come in order of their keys. -/
def InKeyOrder : Value → Prop
  | entity _ fields => Keyed.Ascending fields
  | map entries => Keyed.Ascending entries
  | _ => True

/-- Fields and entries come in order of their keys, hidden fields not looked into. -/
abbrev Ordered (hidden : Hidden) : Value → Prop := Everywhere hidden InKeyOrder

/-- Fields and entries come in order of their keys, as reading and building values leave them. -/
def Canonical : Value → Prop := Ordered fun _ _ => false

/-- A set does not hold an element twice. -/
def IsNodup : Value → Prop
  | set _ elements => elements.Nodup
  | _ => True

/-- No set inside holds an element twice. -/
def SetsNodup : Value → Prop := Everywhere (fun _ _ => false) IsNodup

instance : DecidablePred InKeyOrder
  | entity _ fields => inferInstanceAs (Decidable (fields.Pairwise _))
  | map entries => inferInstanceAs (Decidable (entries.Pairwise _))
  | null | bool _ | int _ | text _ | list _ | set _ _ => inferInstanceAs (Decidable True)

instance : DecidablePred IsNodup
  | set _ elements => inferInstanceAs (Decidable elements.Nodup)
  | null | bool _ | int _ | text _ | entity _ _ | list _ | map _ => inferInstanceAs (Decidable True)

instance : DecidablePred Canonical := inferInstanceAs (DecidablePred (Everywhere _ _))

instance : DecidablePred SetsNodup := inferInstanceAs (DecidablePred (Everywhere _ _))

end Aggregate.Value
