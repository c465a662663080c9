import Mathlib
import Aggregate.Proofs.Mirror
import Aggregate.Proofs.Replanning
import Aggregate.Proofs.Undo

/-!
# Saving again

An aggregate that was inserted with a new root can be saved again, which changes nothing but the stored values.

- `Store.Filed`: an aggregate that is settled, with a row for each of its entities after the rows of other roots;
- `Store.filed_of_insert`: inserting an aggregate with a new root leaves it like that;
- `Store.run_inserts`: a run of inserts for entities with identifiers puts back the rows of these entities;
- `Store.execute_save_of_insert`: saving the aggregate again clears its rows and puts back the same ones.
-/

namespace Aggregate

open Value (Lost)

variable {schema : Schema}

theorem Mirrors.moved {R : Value} {node : Address} {row : Row} (h : Mirrors schema R node row) (m : Nat) :
    Mirrors schema R (node.moved m) row := by
  refine ⟨?_, h.ne_null, ?_, ?_, ?_⟩
  · rw [← h.key_eq, Schema.keyAt, Schema.keyAt, Address.links_moved]
  · rw [h.path_eq, Address.path_moved]
  · rw [h.parent_eq, Address.parent?_moved, Option.bind_map]
    exact Option.bind_congr fun p _ => by simp [Schema.keyAt]
  · rw [h.columns_eq, Address.keyColumns_moved]

namespace Store

open ChangeSet (planInsert planSave execute)

variable {other : Option Schema} {n : Nat} {w w₀ w₁ w₂ : Workspace} {s : Store} {R root id : Value} {type : String}
  {head : Action} {inserts executed before : List Action} {ps declared : List DeclaredPath} {set : ChangeSet}
  {rows kept own : List Row}

/-! ## Inserting an aggregate with a new root -/

section Insert

/-- What holds along the inserts of a plan: the aggregate is settled, or a set has lost an element that is still to be
inserted. -/
def SettledOrLost (schema : Schema) (type : String) (u : Value) (accepted : Prop) (_executed pending : List Action)
    (_id R : Value) (_rows : List Row) : Prop :=
  schema.Admits type R ∧ (accepted ∧ schema.Settled R ∨ Lost schema.isId u (places pending) (R.erase schema.isId))

/-- Planning settles an aggregate whose entities are all accepted, unless a set has lost elements. -/
theorem Plans.settled (hs : schema.Separate) (h : Plans schema root set n R) :
    ∃ type id ps head inserts, Parts schema root set n R type id ps head inserts ∧
      ((∀ o ∈ schema.occurrences n root, o.Accepted schema) ∧ schema.Settled R ∨
        Lost schema.isId (root.erase schema.isId) ([] :: places inserts) (R.erase schema.isId)) := by
  obtain ⟨limit, d, type, id, ps, head, inserts, writes, houtline, hinserts, rfl⟩ := h.planned.outline hs
  obtain ⟨-, hwalk⟩ := Plan.insertsBelow_of_root ⟨le_rfl, hs.spares⟩ h.canonical hinserts
  refine ⟨type, id, ps, head, inserts, houtline.parts hs h.canonical h.conforms hinserts, hwalk.imp_left ?_⟩
  rintro ⟨hu, haccepted, hbelow⟩
  exact ⟨fun o ho => (haccepted o ho).1,
    Plan.settled_of_insertsBelow hs h.canonical h.conforms houtline.root_type_eq hinserts hu hbelow⟩

variable {accepted : Prop} {id₀ : Value}

theorem Parts.begins_settled (h : Parts schema root set n R type id₀ ps head inserts) (hs : schema.Separate)
    (hplan : accepted ∧ schema.Settled R ∨
      Lost schema.isId (root.erase schema.isId) ([] :: places inserts) (R.erase schema.isId)) :
    Begins schema n type R head inserts before rows
      (SettledOrLost schema type (root.erase schema.isId) accepted) (fun _ => True) := by
  refine fun id id? rows' hstep => ⟨trivial, fun R' hR => ⟨h.admits hs hR, ?_⟩⟩
  have hnode := h.clears.address?_answered id?
  rcases hplan with ⟨haccepted, hsettled⟩ | hlost
  · refine .inl ⟨haccepted, hsettled.backFills hs (fun node hn => ?_) hR⟩
    cases hnode.symm.trans hn
    trivial
  · refine .inr (hR.erase_eq_of_root hnode ▸ hlost.of_cons ?_)
    simp [Value.at?]

theorem Parts.continues_settled (h : Parts schema root set n R type id₀ ps head inserts) (hs : schema.Separate)
    (u : Value) (accepted : Prop) :
    Continues schema n type inserts (SettledOrLost schema type u accepted) (fun _ => True) := by
  intro executed a rest id R' w s id? s' ⟨hadmits, hJ⟩ ha hrooted hw hschema hruns
  refine ⟨trivial, fun R'' hR => ?_⟩
  have hplain := (h.avoids a ha).plain_answered id?
  refine ⟨hadmits.backFills hs hplain hR, ?_⟩
  rcases hJ with ⟨haccepted, hsettled⟩ | hlost
  · exact .inl ⟨haccepted, hsettled.backFills hs hplain hR⟩
  · exact .inr (lost_of_runs hlost hs hadmits hw (fun node hn => (h.typed a ha node hn).2) (h.avoids a ha) hruns hR)

/-- The insert of a root that no row belongs to begins the rows that follow the inserts of its plan. -/
theorem Parts.begins_of_insert (h : Parts schema root set n R type id₀ [] (.insertRoot type (.root n) none) inserts)
    (hs : schema.Separate) (hn : (rows.map Row.key).Nodup) :
    Begins schema n type R (.insertRoot type (.root n) none) inserts [] rows
      (FollowsIf schema n type (root.erase schema.isId) 0 fun id => ∀ r ∈ rows, r.rootId ≠ id) (fun _ => True) := by
  refine fun id id? rows' hstep => ⟨trivial, fun R' hR => ⟨h.admits hs hR, fun hfree hlen => ?_⟩⟩
  have hinserted := hstep
  cases hinserted with
  | @insert _ v _ hkey hid hfresh =>
    rw [List.length_append] at hlen
    have hnodup : ((rows ++ [(⟨type, id, id, .root, none, [], v⟩ : Row)]).map Row.key).Nodup :=
      Row.nodup_keys_append hn (hfresh (by omega))
    have hrow : ((rows ++ [(⟨type, id, id, .root, none, [], v⟩ : Row)]).filter fun r => r.rootId == id) =
        [⟨type, id, id, .root, none, [], v⟩] := by
      rw [List.filter_append, List.filter_eq_nil_iff.2 (by simpa using hfree), List.nil_append, List.filter_singleton]
      simp
    exact h.following_of_filter hs hnodup hrow rfl rfl rfl rfl hstep hR rfl

/-! ## Aggregates with their rows -/

/-- An aggregate as saving leaves it, after the rows of other roots: it is settled, and each entity has its row. -/
structure Filed (schema : Schema) (n : Nat) (type : String) (id R : Value) (kept own : List Row) : Prop where
  admits : schema.Admits type R
  settled : schema.Settled R
  accepted : ∀ o ∈ schema.occurrences n R, o.Accepted schema
  key_eq : schema.key? R = some (type, id)
  ne_null : id ≠ .null
  nodup : ((kept ++ own).map Row.key).Nodup
  foreign : ∀ r ∈ kept, r.rootId ≠ id
  owned : ∀ r ∈ own, r.rootId = id
  mirrors : List.Forall₂ (fun o row => Mirrors schema R o.node row) (schema.occurrences n R) own

theorem Filed.moved (h : Filed schema n type id R kept own) (m : Nat) : Filed schema m type id R kept own where
  __ := h
  accepted := by
    rw [Schema.occurrences_moved n m]
    exact List.forall_mem_map.2 h.accepted
  mirrors := by
    rw [Schema.occurrences_moved n m, List.forall₂_map_left_iff]
    exact h.mirrors.imp fun o row hrow => hrow.moved m

/-- The change set that inserts a root takes no row away. -/
theorem Parts.length_le (h : Parts schema root set n R type id₀ [] head inserts) (ho : other.getD schema = schema)
    (hw : w.Holds schema n R) (hschema : s.schema = schema) :
    s.rows.length ≤ (execute other executor set w s).state.rows.length := by
  have hle {rows' : List Row} (hsaves : Saves schema n type R head inserts (s.clear id₀ []).rows rows') :
      s.rows.length ≤ rows'.length := by simpa using hsaves.length_le
  obtain ⟨-, hle, -⟩ := execute_storing ho hw h.type_eq hschema h.clears.head_eq h.avoids h.set_parts
    (begins_saves fun _ => hle) (continues_saves (fun _ => hle) h.avoids) (by simp)
  exact hle

/-- Once the change set was carried out that inserts a root, the aggregate is settled, and each of its entities has its
row if no row belonged to the root before. -/
theorem Parts.mirrors_of_insert (h : Parts schema root set n R type id₀ [] (.insertRoot type (.root n) none) inserts)
    (hs : schema.Separate) (hnodup : (s.rows.map Row.key).Nodup) (hplan : accepted ∧ schema.Settled R ∨
      Lost schema.isId (root.erase schema.isId) ([] :: places inserts) (R.erase schema.isId))
    (ho : other.getD schema = schema) (hw : w.Holds schema n R) (hschema : s.schema = schema)
    (hok : (execute other executor set w s).answer = .ok ())
    (hlen : (execute other executor set w s).state.rows.length < 2 ^ 64) :
    ∃ v id, (execute other executor set w s).set.entity = some v ∧ schema.key? v = some (type, id) ∧
      schema.Admits type v ∧ accepted ∧ schema.Settled v ∧ ((∀ r ∈ s.rows, r.rootId ≠ id) →
        v.erase schema.isId = root.erase schema.isId ∧
          ((execute other executor set w s).state.rows.map Row.key).Nodup ∧
          List.Forall₂ (fun o row => Mirrors schema v o.node row) (schema.occurrences n v)
            ((execute other executor set w s).state.rows.filter fun r => r.rootId == id)) := by
  obtain ⟨-, -, hdone⟩ := execute_storing ho hw h.type_eq hschema h.clears.head_eq h.avoids h.set_parts
    (by rw [clear_nil]; exact (h.begins_of_insert hs hnodup).and (h.begins_settled hs hplan))
    ((h.continues hs _ _ _).and (h.continues_settled hs _ _)) trivial
  obtain ⟨v, hv, executed, id, hkey, ⟨hadmits, hfollowing⟩, -, hsettled⟩ := hdone hok
  obtain ⟨haccepted, hsettled⟩ := hsettled.resolve_right Value.not_lost_nil
  refine ⟨v, id, hv, hkey, hadmits, haccepted, hsettled, fun hfree => ?_⟩
  have hfollowing := hfollowing hfree hlen
  obtain ⟨hu, hn⟩ := hfollowing.finished
  exact ⟨hu, hn, (hfollowing.mirrors hs hadmits.ordered).imp fun _ _ hm => hm.2⟩

/-- Inserting an aggregate with a root that no row belongs to leaves it settled, with its rows after the others. -/
theorem filed_of_insert {limit : Nat} {v : Value} (hs : schema.Separate) (hschema : s.schema = schema)
    (hnodup : (s.rows.map Row.key).Nodup) (hcanonical : root.Canonical) (hconforms : schema.Conforms root)
    (hw₀ : w₀.schema = schema) (hplan : planInsert limit w₀ root = (.ok set, w₁))
    (hw : w.Holds schema w₀.roots.length (w₁.root w₀.roots.length)) (ho : other.getD schema = schema)
    (hok : (execute other executor set w s).answer = .ok ())
    (hv : (execute other executor set w s).set.entity = some v) (hkey : schema.key? v = some (type, id))
    (hfree : ∀ r ∈ s.rows, r.rootId ≠ id) (hlen : (execute other executor set w s).state.rows.length < 2 ^ 64) :
    (execute other executor set w s).state.schema = schema ∧
      ∃ own, (execute other executor set w s).state.rows = s.rows ++ own ∧
        Filed schema w₀.roots.length type id v s.rows own := by
  have hplans : Plans schema root set w₀.roots.length (w₁.root w₀.roots.length) :=
    ⟨hcanonical, hconforms, limit, w₀, w₁, hw₀, .inl hplan, rfl, rfl⟩
  obtain ⟨type', id₀, ps, head, inserts, h, hsettled⟩ := hplans.settled hs
  obtain ⟨rfl, rfl⟩ := h.of_planInsert hplan
  obtain ⟨hschema', hnull, -, own, hrows, hown⟩ := Extends.of_insert hs hschema
    ((h.length_le ho hw hschema).trans_lt hlen) hcanonical hconforms hw₀ hplan hw ho hok hv hkey hfree
  obtain ⟨v', id', hv', hkey', hadmits, haccepted, hsettled, hmirrors⟩ :=
    h.mirrors_of_insert hs hnodup hsettled ho hw hschema hok hlen
  cases hv'.symm.trans hv
  cases hkey'.symm.trans hkey
  obtain ⟨hu, hn, hmirrors⟩ := hmirrors hfree
  have haccepted := Occurrence.accepted_of_erase_eq hs.spares hu haccepted
  have howned : ∀ r ∈ own, r.rootId = id := fun r hr => (hown r hr).rootId_eq
  have hfilter : ((s.rows ++ own).filter fun r => r.rootId == id) = own := by
    rw [List.filter_append, List.filter_eq_nil_iff.2 (by simpa using hfree), List.nil_append]
    exact List.filter_eq_self.2 (by simpa using howned)
  rw [hrows] at hn hmirrors
  rw [hfilter] at hmirrors
  exact ⟨hschema', own, hrows, hadmits, hsettled, haccepted, hkey, hnull, hn, hfree, howned, hmirrors⟩

end Insert

/-! ## Inserting the entities again -/

theorem key?_of_mirrors {o : Occurrence} {row : Row} (h : Mirrors schema R o.node row) (hs : schema.Separate)
    (hR : R.Ordered schema.isId) (ho : Occurs schema n R o) : schema.key? o.value = some row.key := by
  rw [← h.key_eq, Schema.keyAt, Address.at?_of_current ho.plain (ho.reads hs.spares hR).1, Option.bind_some]

/-- The insert of an entity with an identifier puts its row back, if no row has its key. -/
theorem runs_insert_of_mirrors {o holder : Occurrence} {row : Row} {t : String} {k : Nat} {dependency : Action}
    (h : Mirrors schema R o.node row) (hs : schema.Separate) (hR : R.Ordered schema.isId) (hw : w.Holds schema n R)
    (hschema : s.schema = schema) (hr : Rooted schema n type row.rootId executed R) (ho : Occurs schema n R o)
    (hholder : Occurs schema n R holder) (ht : o.value.type? = some t) (hparent : o.node.parent? = some holder.node)
    (hdep : executed[k]? = some dependency) (hans : Answers schema R holder.node dependency)
    (hfresh : row.key ∉ s.rows.map Row.key) :
    ∃ row', row'.bare = row.bare ∧ (Store.run w (.insert t o.node (some k) o.node.keyColumns none) executed).Runs s none
      { s with rows := s.rows ++ [row'] } := by
  subst hschema
  obtain ⟨hv, -⟩ := ho.reads hs.spares hR
  obtain ⟨hv', -⟩ := hholder.reads hs.spares hR
  obtain ⟨parentId, hparentKey, hparentId⟩ := identity_of_answers hans hw hholder.plain hholder.origin_eq hv'
  have hkey := key?_of_mirrors h hs hR ho
  cases ht.symm.trans (Schema.key?_eq_some.1 hkey).1
  obtain ⟨name, hname, hread⟩ := Schema.read_of_key? hkey
  refine ⟨{ row with value := o.value }, rfl, runs_insert_iff.2 ⟨dependency, parentId, row.rootId, ⟨o.value, row.id, none⟩,
    s, hdep, hparentId, hr.rootIdentity_eq hw, runs_prepare_iff.2 ⟨o.value, name, ?_, hname, ?_⟩, rfl, ?_⟩⟩
  · exact valueOf_eq_ok.2 ⟨o.node, rfl, (hw.current ho.origin_eq).trans hv⟩
  · exact .given hread h.ne_null (find?_eq_none.2 (not_mem_keys.1 hfresh))
  · have hparentEq : row.parentId = some parentId := by
      rw [h.parent_eq, hparent, Option.bind_some, hparentKey, Option.map_some]
    simp only [Action.type, Action.address?, Action.columns?, Option.map_some, Option.getD_some, ← hparentEq, h.path_eq,
      h.columns_eq]

/-- A run of the inserts for entities with identifiers puts their rows back, if no row has one of their keys. -/
theorem run_inserts {base : Nat} {before xs : List Occurrence} {acts : List Action} (other : Option Schema)
    (root? : Option Address) (h : Inserts base before xs acts) (hs : schema.Separate) (hR : R.Ordered schema.isId)
    (hw : w.Holds schema n R) (hschema : s.schema = schema) (hr : Rooted schema n type id executed R)
    (hoccurs : ∀ o ∈ before ++ xs, Occurs schema n R o) (hbase : base ≤ executed.length)
    (hbefore : List.Forall₂ (fun o a => Answers schema R o.node a) before (executed.drop base))
    (hmirrors : List.Forall₂ (fun o row => Mirrors schema R o.node row) xs rows) (howned : ∀ r ∈ rows, r.rootId = id)
    (hnodup : ((s.rows ++ rows).map Row.key).Nodup) :
    ∃ s', ChangeSet.run other executor type executed acts root? w s = ⟨.ok root?, executed ++ acts, w, s'⟩ ∧
      s'.nextId = s.nextId ∧ s'.rows.map Row.bare = (s.rows ++ rows).map Row.bare := by
  induction h generalizing executed rows s with
  | nil =>
    cases hmirrors
    exact ⟨s, by simp [ChangeSet.run, ChangeSet.runBy], rfl, by simp⟩
  | @cons before rest o holder t j actions ht hj hparent _ _ ih =>
    cases hmirrors with
    | @cons _ row _ rows hrow hrest =>
      rw [List.forall_mem_cons] at howned
      obtain ⟨rfl, howned⟩ := howned
      have ho : Occurs schema n R o := hoccurs o (by simp)
      -- the action of the holder is in its place
      obtain ⟨dependency, hdep, hans⟩ := exists_getElem?_of_forall₂ hbefore hj
      rw [List.getElem?_drop] at hdep
      have hfresh : row.key ∉ s.rows.map Row.key := fun hmem => by
        rw [List.map_append, List.nodup_append] at hnodup
        exact hnodup.2.2 _ hmem _ (by simp) rfl
      obtain ⟨row', hbare, hruns⟩ := runs_insert_of_mirrors hrow hs hR hw hschema hr ho
        (hoccurs holder (List.mem_append_left _ (List.mem_of_getElem? hj))) ht hparent hdep hans hfresh
      have hkey : row'.key = row.key := show row'.bare.key = row.bare.key from congrArg Row.key hbare
      have hans' : Answers schema R o.node (.insert t o.node (some (base + j)) o.node.keyColumns none) := by
        cases ht.symm.trans (Schema.key?_eq_some.1 (key?_of_mirrors hrow hs hR ho)).1
        exact ⟨rfl, row.id, hrow.key_eq, fun _ hid => by cases hid⟩
      obtain ⟨s', hrun, hnext, hrows⟩ := ih (s := { s with rows := s.rows ++ [row'] }) hschema
        (hr.append_of_isRoot_eq rfl hr.key_eq) (by simpa using hoccurs) (by rw [List.length_append]; omega)
        (by rw [List.drop_append_of_le_length hbase]; exact List.rel_append hbefore (.cons hans' .nil)) hrest howned
        (by simpa [hkey] using hnodup)
      refine ⟨s', ?_, hnext, by simpa [hbare] using hrows⟩
      rw [run_of_runs other hruns rfl]
      simpa [Action.rootAddress?, Action.isRoot] using hrun

/-! ## Saving again -/

/-- The rows of the entities below the root are at declared paths. -/
theorem Filed.declares (h : Filed schema n type id R kept own) (hs : schema.Separate) {o : Occurrence} {row : Row}
    (ho : o ∈ Occurrence.below schema ⟨.root n, R⟩) (hm : Mirrors schema R o.node row) :
    schema.Declares type .root row.path row.type := by
  have hoccurs : Occurs schema n R o := mem_occurrences_iff.1 (Occurrence.mem_all_of_mem_below ho)
  have htype := (Schema.key?_eq_some.1 (key?_of_mirrors hm hs h.admits.ordered hoccurs)).1
  have htyped := (hoccurs.typed h.admits.conforms h.admits.type_eq).2 _ htype
  rw [hm.path_eq]
  exact htyped.declares (Occurrence.isRoot_of_mem_below ho)

/-- Deletes at all declared paths leave the root of an aggregate its own row only. -/
theorem Filed.clear {deepest : Nat} (h : Filed schema n type id R kept own) (hs : schema.Separate)
    (hdeclared : schema.declared deepest type = .ok declared) (hrows : s.rows = kept ++ own) :
    ∃ row below, own = row :: below ∧ isRootRow type id row = true ∧
      List.Forall₂ (fun o row => Mirrors schema R o.node row) (Occurrence.below schema ⟨.root n, R⟩) below ∧
      (s.clear id declared.reverse).rows = kept ++ [row] := by
  have hmirrors := h.mirrors
  rw [Schema.occurrences, Occurrence.all_eq] at hmirrors
  cases hmirrors with
  | @cons _ row _ below hroot hbelow =>
    have hpath : row.path = .root := hroot.path_eq
    have hkey : row.key = (type, id) := Option.some.inj (hroot.key_eq.symm.trans h.key_eq)
    obtain ⟨ht, hid⟩ := Prod.mk.inj hkey
    refine ⟨row, below, rfl, isRootRow_iff.2 ⟨ht, Path.isRoot_iff.2 hpath, hid⟩, hbelow, ?_⟩
    rw [Store.clear, hrows, List.filter_append, List.filter_cons, if_pos ?_, List.filter_eq_self.2 ?_,
      List.filter_eq_nil_iff.2 ?_]
    · intro r hr
      obtain ⟨o, ho, hm⟩ := exists_of_forall₂ hbelow.flip hr
      have hmem := (Schema.mem_declared hdeclared ⟨r.path, r.type⟩).2 (h.declares hs ho hm)
      simpa [h.owned r (List.mem_cons_of_mem _ hr)] using ⟨_, hmem, rfl, rfl⟩
    · intro r hr
      simp [h.foreign r hr]
    · have hnone : ∀ p ∈ declared, row.path ≠ p.path := fun p hp heq => by
        have hproot := ((Schema.mem_declared hdeclared p).1 hp).isRoot_eq
        rw [← heq, hpath] at hproot
        cases hproot
      simp only [Bool.not_eq_true', Bool.and_eq_false_imp, List.any_eq_false, List.mem_reverse, Bool.and_eq_true,
        beq_iff_eq, not_and]
      exact fun _ p hp _ => hnone p hp

/-- After these deletes the root is updated. -/
theorem Filed.update {deepest : Nat} (h : Filed schema n type id R kept own) (hs : schema.Separate)
    (hdeclared : schema.declared deepest type = .ok declared) (hw : w.Holds schema n R) (hschema : s.schema = schema)
    (hrows : s.rows = kept ++ own) (executed : List Action) :
    ∃ row below s₁, own = row :: below ∧
      List.Forall₂ (fun o row => Mirrors schema R o.node row) (Occurrence.below schema ⟨.root n, R⟩) below ∧
      (Store.run w (.updateRoot type (.root n)) executed).Runs (s.clear id declared.reverse) none s₁ ∧
      Rooted schema n type id (executed ++ [.updateRoot type (.root n)]) R ∧
      s₁.schema = schema ∧ s₁.nextId = s.nextId ∧ s₁.rows.map Row.bare = (kept ++ [row]).map Row.bare := by
  obtain ⟨row, below, rfl, hrow, hbelow, hcleared⟩ := h.clear hs hdeclared hrows
  subst hschema
  have hany : ∃ r ∈ (s.clear id declared.reverse).rows, isRootRow type id r = true := ⟨row, by simp [hcleared], hrow⟩
  obtain ⟨name, hname, hread⟩ := Schema.read_of_key? h.key_eq
  have hruns : (Store.run w (.updateRoot type (.root n)) executed).Runs (s.clear id declared.reverse) none _ :=
    runs_updateRoot_iff.2 ⟨id, R, (identity_eq_ok rfl).2 ⟨.root n, R, name, rfl, hw.current rfl, hname, hread⟩,
      valueOf_eq_ok.2 ⟨.root n, rfl, hw.current rfl⟩, hany, rfl, rfl⟩
  have hrooted : Rooted s.schema n type id (executed ++ [.updateRoot type (.root n)]) R :=
    (RootStep.update (v := R) h.key_eq hany).rooted h.admits.type_eq (.none (.inl rfl))
  exact ⟨row, below, _, rfl, hbelow, hruns, hrooted, rfl, rfl, (map_bare_updateFirst _ R _).trans (by rw [hcleared])⟩

/-- Saving an aggregate again that has its rows in the store changes nothing but the values stored. -/
theorem Filed.execute_save {deepest : Nat} (h : Filed schema n type id R kept own) (hs : schema.Separate)
    (hdeclared : schema.declared deepest type = .ok declared) (hw : w.Holds schema n R) (hschema : s.schema = schema)
    (hrows : s.rows = kept ++ own)
    (hinserts : Inserts declared.length [⟨.root n, R⟩] (Occurrence.below schema ⟨.root n, R⟩) inserts)
    (hset : set = ⟨.save, type, some R,
      (declared.reverse.map fun p => .delete p.target id p.path) ++ .updateRoot type (.root n) :: inserts⟩)
    (other : Option Schema) :
    ∃ s', execute other executor set w s = ⟨.ok (), set, w, s'⟩ ∧ s'.nextId = s.nextId ∧
      s'.rows.map Row.bare = s.rows.map Row.bare := by
  let deletes : List Action := declared.reverse.map fun p => .delete p.target id p.path
  have hlength : deletes.length = declared.length := by simp [deletes]
  obtain ⟨row, below, s₁, rfl, hbelow, hruns, hrooted, hschema₁, hnext₁, hbare₁⟩ :=
    h.update hs hdeclared hw hschema hrows deletes
  have hbefore : List.Forall₂ (fun o a => Answers schema R o.node a) [(⟨.root n, R⟩ : Occurrence)]
      ((deletes ++ [Action.updateRoot type (.root n)]).drop declared.length) := by
    rw [List.drop_append_of_le_length hlength.ge, List.drop_of_length_le hlength.le]
    exact .cons ⟨rfl, id, h.key_eq, nofun⟩ .nil
  have hoccurs : ∀ o ∈ [(⟨.root n, R⟩ : Occurrence)] ++ Occurrence.below schema ⟨.root n, R⟩, Occurs schema n R o := by
    intro o ho
    rw [List.singleton_append, ← Occurrence.all_eq] at ho
    exact mem_occurrences_iff.1 ho
  have hbare : (s₁.rows ++ below).map Row.bare = s.rows.map Row.bare := by
    rw [List.map_append, hbare₁, ← List.map_append, List.append_assoc, List.singleton_append, hrows]
  have hnodup : ((s₁.rows ++ below).map Row.key).Nodup := by
    rw [← map_key_map_bare, hbare, map_key_map_bare, hrows]
    exact h.nodup
  obtain ⟨s', hrun, hnext, hbare'⟩ := run_inserts other (some (.root n)) hinserts hs h.admits.ordered hw hschema₁
    hrooted hoccurs (by simp [hlength])
    hbefore hbelow (fun r hr => h.owned r (List.mem_cons_of_mem _ hr)) hnodup
  subst hset
  refine ⟨s', ?_, hnext.trans hnext₁, hbare'.trans hbare⟩
  have hroot : (Action.updateRoot type (.root n)).rootAddress? type w = some (.root n) :=
    ChangeSet.rootAddress?_eq hw (fun _ => rfl) h.admits.type_eq
  rw [execute, run_deletes, List.nil_append, run_of_runs other hruns rfl, hroot, Option.some_or, hrun]
  have hcurrent : w.current (.root n) = .ok R := hw.current rfl
  simp [ChangeSet.finish, hcurrent, deletes]

/-- Saving again changes nothing. After an insert of an aggregate whose root has got an identifier that no row in the
store was inserted under, the aggregate as it came back can be planned to be saved, which leaves it as it is. That plan is
carried out; its change set comes back as it was planned, with the same aggregate and no identifier made up, and the
store has the same rows in the same order, but for the values stored. This takes that the paths below the type of the root
can be listed, and fewer rows than there are numbers for their identifiers. -/
theorem execute_save_of_insert {limit deepest : Nat} {v : Value} (hs : schema.Separate) (hschema : s.schema = schema)
    (hnodup : (s.rows.map Row.key).Nodup) (hdeclared : schema.declared deepest type = .ok declared)
    (hcanonical : root.Canonical) (hconforms : schema.Conforms root) (hw₀ : w₀.schema = schema)
    (hplan : planInsert limit w₀ root = (.ok set, w₁))
    (hw : w.Holds schema w₀.roots.length (w₁.root w₀.roots.length)) (ho : other.getD schema = schema)
    (hok : (execute other executor set w s).answer = .ok ())
    (hv : (execute other executor set w s).set.entity = some v) (hkey : schema.key? v = some (type, id))
    (hfree : ∀ r ∈ s.rows, r.rootId ≠ id) (hlen : (execute other executor set w s).state.rows.length < 2 ^ 64)
    (hw₂ : w₂.schema = schema) :
    ∃ saving, planSave deepest w₂ v = (.ok saving, w₂.addRoot v) ∧ saving.entity = some v ∧
      (∀ a ∈ saving.actions, a.generatedId = none) ∧
      ∀ (w' : Workspace) (other' : Option Schema), w'.Holds schema w₂.roots.length v →
        ∃ s', execute other' executor saving w' (execute other executor set w s).state = ⟨.ok (), saving, w', s'⟩ ∧
          s'.nextId = (execute other executor set w s).state.nextId ∧
          s'.rows.map Row.bare = (execute other executor set w s).state.rows.map Row.bare := by
  obtain ⟨hschema', own, hrows, hfiled⟩ :=
    filed_of_insert hs hschema hnodup hcanonical hconforms hw₀ hplan hw ho hok hv hkey hfree hlen
  have hfiled := hfiled.moved w₂.roots.length
  obtain ⟨inserts, hsave, hinserts⟩ := ChangeSet.planSave_of_settled hs.spares hw₂ hdeclared hkey hfiled.ne_null
    hfiled.admits.ordered hfiled.admits.conforms hfiled.settled hfiled.accepted
  refine ⟨_, hsave, rfl, ?_, fun w' other' hw' => ?_⟩
  · have haims := hinserts.aims hs.spares fun o ho => mem_occurrences_iff.1 (Occurrence.mem_all_of_mem_below ho)
    exact List.forall_mem_append.2 ⟨List.forall_mem_map.2 fun _ _ => rfl,
      List.forall_mem_cons.2 ⟨rfl, fun a ha => (haims a ha).fresh⟩⟩
  · exact hfiled.execute_save hs hdeclared hw' hschema' hrows hinserts rfl other'

/-- An order is stored beside another one, and saved again. -/
theorem execute_save_of_insert_order :
    ∃ set v saving s', planInsert 1 Shop.planned Shop.order = (.ok set, Shop.plannedTwice) ∧
      (execute none executor set Shop.plannedTwice Shop.stored).answer = .ok () ∧
      (execute none executor set Shop.plannedTwice Shop.stored).set.entity = some v ∧
      Shop.entities.key? v = some ("Order", .int 6) ∧
      planSave 1 Shop.plannedTwice v = (.ok saving, Shop.plannedTwice.addRoot v) ∧
      execute none executor saving (Shop.plannedTwice.addRoot v)
        (execute none executor set Shop.plannedTwice Shop.stored).state =
          ⟨.ok (), saving, Shop.plannedTwice.addRoot v, s'⟩ ∧
      s'.rows.map Row.bare = (execute none executor set Shop.plannedTwice Shop.stored).state.rows.map Row.bare ∧
      s'.rows.length = 10 := by
  obtain ⟨v, hv, hkey⟩ := Shop.exists_key_twice
  have hok : (execute none executor (Shop.changes (planInsert 1 Shop.planned Shop.order)) Shop.plannedTwice
      Shop.stored).answer = .ok () := by decide +kernel
  obtain ⟨saving, hsaving, -, -, hexecute⟩ := execute_save_of_insert (by decide) rfl (by decide +kernel)
    Shop.declared_order (by decide) Shop.conforms_order rfl Shop.plan_twice Shop.holds_plannedTwice rfl hok hv hkey
    (by decide +kernel) (by decide +kernel) (show Shop.plannedTwice.schema = Shop.entities from rfl)
  obtain ⟨s', hstate, -, hrows⟩ := hexecute (Shop.plannedTwice.addRoot v) none ⟨rfl, by simp [Workspace.addRoot]⟩
  refine ⟨_, v, saving, s', Shop.plan_twice, hok, hv, hkey, hsaving, hstate, hrows, ?_⟩
  have hlength := congrArg List.length hrows
  rw [List.length_map, List.length_map] at hlength
  rw [hlength]
  decide +kernel

end Store

end Aggregate
