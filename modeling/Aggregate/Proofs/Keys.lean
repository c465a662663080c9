import Mathlib
import Aggregate.Proofs.Assigning
import Aggregate.Proofs.Soundness

/-!
# Identifiers of rows

Which identifiers the rows of a store have, whatever was carried out on it.

- `Store.firstFree_of_free`: the counter stops at a number that is not taken, if there is one ahead of it;
- `Store.Preparing.fresh`: an entity is stored with an identifier that no row of its type has;
- `Store.Labelled`: the rows are told apart by their keys, and each has the identifier of its value;
- `Store.Driven`: any actions were carried out on the store, with any outcome;
- `Store.ids_of_driven`: then both hold of its rows.
-/

namespace Aggregate

variable {schema : Schema} {w : Workspace} {a : Action} {executed : List Action} {p : Store.Prepared} {s s' : Store}
  {id? : Option Value} {type : String}

namespace Store

/-! ## The counter -/

/-- The counter stops at a number that is not taken, and not after the first one. -/
theorem firstFree_of_free {taken : List Value} {next m : Int64} (hle : next ≤ m) (hfree : .int m ∉ taken) :
    next ≤ firstFree taken next ∧ firstFree taken next ≤ m ∧ .int (firstFree taken next) ∉ taken := by
  induction taken, next using firstFree.induct with
  | case1 taken next h ih =>
    have hne : next ≠ m := by
      rintro rfl
      exact hfree h
    have hnext : next < next + 1 ∧ next + 1 ≤ m := by grind
    obtain ⟨hge, hend, hnot⟩ := ih hnext.2 fun hin => hfree (List.mem_of_mem_filter hin)
    rw [firstFree, if_pos h]
    refine ⟨by grind, hend, fun hin => hnot (List.mem_filter.2 ⟨hin, ?_⟩)⟩
    have hlater : firstFree (without (.int next) taken) (next + 1) ≠ next := by grind
    simpa using hlater
  | case2 taken next h =>
    rw [firstFree, if_neg h]
    exact ⟨by grind, hle, h⟩

/-- The counter finds a number that no row of the type has, before it comes to the largest number. -/
def Room (s : Store) (type : String) : Prop :=
  ∃ m, s.nextId ≤ m ∧ m < Int64.maxValue ∧ ∀ r ∈ s.rowsOf type, r.id ≠ .int m

theorem Room.fresh (h : s.Room type) :
    ∀ r ∈ s.rows, r.type = type → r.id ≠ .int (firstFree ((s.rowsOf type).map (·.id)) s.nextId) := by
  obtain ⟨m, hle, -, hfree⟩ := h
  have hnot : .int m ∉ (s.rowsOf type).map (·.id) := by
    intro hin
    obtain ⟨r, hr, hid⟩ := List.mem_map.1 hin
    exact hfree r hr hid
  obtain ⟨-, -, hnot⟩ := firstFree_of_free hle hnot
  intro r hr ht hid
  exact hnot (List.mem_map.2 ⟨r, mem_rowsOf.2 ⟨hr, ht⟩, hid⟩)

/-! ## What is prepared -/

namespace Preparing

variable {v : Value} {name : String}

/-- The value prepared has the identifier prepared. -/
theorem read (h : Preparing s type v name p s') : s.schema.read p.value name = .ok p.id := by
  cases h with
  | made hread _ => exact Schema.read_withField hread _
  | given hread _ _ => exact hread

theorem ne_null (h : Preparing s type v name p s') : p.id ≠ .null := by
  cases h with
  | made _ _ => nofun
  | given _ hne _ => exact hne

/-- No row of the type has the identifier prepared. -/
theorem fresh (hroom : ∀ id, p.generated = some id → s.Room type) (h : Preparing s type v name p s') :
    ∀ r ∈ s.rows, r.type = type → r.id ≠ p.id := by
  cases h with
  | made _ hid =>
    intro r hr ht
    rw [← hid]
    exact (hroom _ rfl).fresh r hr ht
  | given _ _ hfind => exact find?_eq_none.1 hfind

end Preparing

end Store

/-! ## Labels -/

/-- The row has an identifier, and it is the one that the stored value has. -/
structure Row.Labelled (schema : Schema) (r : Row) : Prop where
  ne_null : r.id ≠ .null
  read : ∃ name, schema.idProperty? r.type = some name ∧ schema.read r.value name = .ok r.id

namespace Store

/-- The rows are told apart by their keys, and each has the identifier of its value. -/
structure Labelled (s : Store) : Prop where
  nodup : (s.rows.map Row.key).Nodup
  rows : ∀ r ∈ s.rows, r.Labelled s.schema

namespace Labelled

theorem empty : (Store.empty schema).Labelled := ⟨by simp [Store.empty], by simp [Store.empty]⟩

theorem of_rows (hrows : s'.rows = s.rows) (hschema : s'.schema = s.schema) (h : s.Labelled) : s'.Labelled :=
  ⟨hrows ▸ h.nodup, hschema ▸ hrows ▸ h.rows⟩

/-- One more row, with a key that no row has. -/
theorem append {r : Row} (hr : r.Labelled s.schema) (hfresh : ∀ r' ∈ s.rows, r'.type = r.type → r'.id ≠ r.id)
    (h : s.Labelled) : Labelled { s with rows := s.rows ++ [r] } := by
  refine ⟨?_, List.forall_mem_append.2 ⟨h.rows, List.forall_mem_singleton.2 hr⟩⟩
  have hkey : r.key ∉ s.rows.map Row.key := by
    intro hin
    obtain ⟨r', hr', hkey⟩ := List.mem_map.1 hin
    obtain ⟨ht, hid⟩ := Prod.mk.inj hkey
    exact hfresh r' hr' ht hid
  rw [List.map_append, List.map_singleton]
  exact h.nodup.append (List.nodup_singleton _) (List.disjoint_singleton.2 hkey)

/-- The row prepared for an entity is one more row. -/
theorem prepared {v : Value} {name : String} {s₁ : Store} {r : Row} (hname : s.schema.idProperty? r.type = some name)
    (hprepare : Preparing s r.type v name p s₁) (hroom : ∀ id, p.generated = some id → s.Room r.type)
    (hid : r.id = p.id) (hvalue : r.value = p.value) (h : s.Labelled) :
    Labelled { s₁ with rows := s₁.rows ++ [r] } := by
  obtain ⟨hrows, hschema⟩ := hprepare.frame
  have hfresh := hprepare.fresh hroom
  refine (h.of_rows hrows hschema).append ⟨hid ▸ hprepare.ne_null, name, ?_⟩ ?_
  · rw [hschema, hid, hvalue]
    exact ⟨hname, hprepare.read⟩
  · rw [hrows, hid]
    exact hfresh

/-- The row of a root holds another value with the same identifier. -/
theorem updateFirst {id v : Value} {name : String} (hname : s.schema.idProperty? type = some name)
    (hread : s.schema.read v name = .ok id) (h : s.Labelled) :
    Labelled { s with rows := Store.updateFirst (isRootRow type id) (fun r => { r with value := v }) s.rows } := by
  refine ⟨?_, fun r hr => ?_⟩
  · have hkeys (rows : List Row) : rows.map Row.key = (rows.map Row.bare).map Row.key := by
      rw [List.map_map]
      rfl
    rw [hkeys, map_bare_updateFirst, ← hkeys]
    exact h.nodup
  · rcases mem_updateFirst hr with hr | ⟨r', hr', hchosen, rfl⟩
    · exact h.rows r hr
    · obtain ⟨rfl, -, rfl⟩ := isRootRow_iff.1 hchosen
      exact ⟨(h.rows r' hr').ne_null, name, hname, hread⟩

theorem filter (keep : Row → Bool) (h : s.Labelled) : Labelled { s with rows := s.rows.filter keep } :=
  ⟨h.nodup.sublist (List.filter_sublist.map _), fun r hr => h.rows r (List.mem_of_mem_filter hr)⟩

/-- A step that succeeds keeps the labels right. -/
theorem of_runs (hroom : ∀ id, id? = some id → s.Room a.type) (h : s.Labelled)
    (hrun : (Store.run w a executed).Runs s id? s') : s'.Labelled := by
  cases a with
  | insertRoot type node generated =>
    obtain ⟨p, s₁, hprepare, rfl, rfl⟩ := runs_insertRoot_iff.1 hrun
    obtain ⟨v, name, -, hname, hprepare⟩ := runs_prepare_iff.1 hprepare
    exact h.prepared hname hprepare hroom rfl rfl
  | updateRoot type node =>
    obtain ⟨id, v, hid, hv, -, rfl, rfl⟩ := runs_updateRoot_iff.1 hrun
    obtain ⟨node', v', name, hnode, hv', hname, hread⟩ := (identity_eq_ok rfl).1 hid
    cases hv.symm.trans (valueOf_eq_ok.2 ⟨node', hnode, hv'⟩)
    exact h.updateFirst hname hread
  | insert type node dependsOn columns generated =>
    obtain ⟨dependency, parentId, rootId, p, s₁, -, -, -, hprepare, rfl, rfl⟩ := runs_insert_iff.1 hrun
    obtain ⟨v, name, -, hname, hprepare⟩ := runs_prepare_iff.1 hprepare
    exact h.prepared hname hprepare hroom rfl rfl
  | delete type rootId path =>
    obtain ⟨-, rfl⟩ := hrun
    exact h.filter _

/-- A step keeps the labels right, whether it succeeds or fails. -/
theorem run (hroom : ∀ id s', (Store.run w a executed).Runs s (some id) s' → s.Room a.type) (h : s.Labelled) :
    (Store.run w a executed s).2.Labelled := by
  cases hanswer : (Store.run w a executed s).1 with
  | ok id? =>
    refine h.of_runs (fun id hid => ?_) ⟨hanswer, rfl⟩
    subst hid
    exact hroom id _ ⟨hanswer, rfl⟩
  | error e => exact (eq_of_fails ⟨⟨e, hanswer⟩, rfl⟩).symm ▸ h

end Labelled

/-! ## Stores driven by any actions -/

/-- Any actions were carried out on the store, each with any actions before it and with any outcome; the counter had room
for each identifier made up. -/
inductive Driven (schema : Schema) : Store → Prop
  | empty : Driven schema (.empty schema)
  | run (w : Workspace) (a : Action) (executed : List Action) {s : Store} : Driven schema s →
      (∀ id s', (Store.run w a executed).Runs s (some id) s' → s.Room a.type) →
      Driven schema (Store.run w a executed s).2

theorem schema_run (w : Workspace) (a : Action) (executed : List Action) (s : Store) :
    (Store.run w a executed s).2.schema = s.schema := by
  cases hanswer : (Store.run w a executed s).1 with
  | error e => rw [eq_of_fails ⟨⟨e, hanswer⟩, rfl⟩]
  | ok id? =>
    have hrun : (Store.run w a executed).Runs s id? (Store.run w a executed s).2 := ⟨hanswer, rfl⟩
    generalize (Store.run w a executed s).2 = s' at hrun
    cases a with
    | insertRoot _ _ _ =>
      obtain ⟨_, _, _, _, -, -, hschema, -⟩ := runs_insertRoot hrun
      exact hschema
    | updateRoot _ _ =>
      obtain ⟨_, _, -, -, -, hschema, -⟩ := runs_updateRoot hrun
      exact hschema
    | insert _ _ _ _ _ =>
      obtain ⟨_, _, _, _, _, _, _, -, -, -, -, -, hschema, -⟩ := runs_insert hrun
      exact hschema
    | delete _ _ _ =>
      obtain ⟨-, rfl⟩ := hrun
      rfl

theorem labelled_of_driven (h : Driven schema s) : s.schema = schema ∧ s.Labelled := by
  induction h with
  | empty => exact ⟨rfl, .empty⟩
  | run w a executed _ hroom ih => exact ⟨(schema_run w a executed _).trans ih.1, ih.2.run hroom⟩

/-- The identifiers in a table are distinct and not null, and each is the one of the stored value. -/
theorem ids_of_driven (h : Driven schema s) (type : String) :
    ((s.rowsOf type).map (·.id)).Nodup ∧
      ∀ r ∈ s.rowsOf type, r.id ≠ .null ∧
        ∃ name, schema.idProperty? type = some name ∧ schema.read r.value name = .ok r.id := by
  obtain ⟨rfl, hnodup, hrows⟩ := labelled_of_driven h
  refine ⟨List.Nodup.of_map (fun id => (type, id)) ?_, fun r hr => ?_⟩
  · have hkeys : ((s.rowsOf type).map (·.id)).map (fun id => (type, id)) = (s.rowsOf type).map Row.key := by
      rw [List.map_map]
      exact List.map_congr_left fun r hr => by rw [← (mem_rowsOf.1 hr).2]; rfl
    rw [hkeys]
    exact hnodup.sublist (List.filter_sublist.map _)
  · obtain ⟨hmem, rfl⟩ := mem_rowsOf.1 hr
    exact ⟨(hrows r hmem).ne_null, (hrows r hmem).read⟩

end Store

namespace Shop

/-- Two tags with one identifier, and one without. -/
def tags : Workspace :=
  ⟨entities, [.entity "Tag" [("id", .int 1)], .entity "Tag" [], .entity "Tag" [("id", .int 1)]], []⟩

/-- A store on which the insert of each tag was carried out. -/
def tagged : Store :=
  [0, 1, 2].foldl (fun s i => (Store.run tags (.insertRoot "Tag" (.root i) none) [] s).2) (.empty entities)

theorem driven_tagged : Store.Driven entities tagged := by
  refine .run tags _ [] (.run tags _ [] (.run tags _ [] .empty ?_) ?_) ?_
  · exact fun _ _ _ => ⟨1, by decide +kernel⟩
  · exact fun _ _ _ => ⟨2, by decide +kernel⟩
  · exact fun _ _ _ => ⟨3, by decide +kernel⟩

end Shop

namespace Store

/-- The counter passes over the identifier of the first tag, and the third tag is refused. -/
theorem ids_of_driven_tagged :
    Driven Shop.entities Shop.tagged ∧ (Shop.tagged.rowsOf "Tag").map (·.id) = [.int 1, .int 2] ∧
      ((Shop.tagged.rowsOf "Tag").map (·.id)).Nodup ∧
      ∀ r ∈ Shop.tagged.rowsOf "Tag", r.id ≠ .null ∧
        ∃ name, Shop.entities.idProperty? "Tag" = some name ∧ Shop.entities.read r.value name = .ok r.id :=
  ⟨Shop.driven_tagged, by decide +kernel, ids_of_driven Shop.driven_tagged "Tag"⟩

end Store

end Aggregate
