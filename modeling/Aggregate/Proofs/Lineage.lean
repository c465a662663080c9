import Mathlib
import Aggregate.Proofs.Identity
import Aggregate.Proofs.Preorder
import Aggregate.Proofs.Soundness

/-!
# Rows and the rows that hold them

No row of a store is an orphan.

- `Linked`: each row below a root has the row of the entity that holds it;
- `Store.Traced`: the actions so far are about entities with rows and with keys of their own; `Store.Traced.step`: one
  more insert;
- `Store.parent_of_reachable`: in reachable stores, also between two actions, all rows are linked up to a root row.
-/

namespace Aggregate

variable {schema : Schema}

/-! ## Declared addresses -/

namespace Schema.Typed

variable {n : Nat} {type target : String} {node : Address} {R v : Value}

/-- In a conforming aggregate, the entity that such an address leads to is read there. -/
theorem current_of_at? (h : schema.Typed n type node target) (hR : schema.Conforms R) (ht : R.type? = some type)
    (hv : R.at? node.links = some v) (hn : v.isEntity = true) : node.current schema R = .ok v := by
  induction h generalizing v with
  | root => cases hv; rfl
  | @child node target e r c part hnode he hr hp ih =>
    rw [Address.links, Value.at?_append] at hv
    obtain ⟨holder, hholder, hv⟩ := Option.bind_eq_some_iff.1 hv
    have hcurrent := ih hholder (Value.isEntity_of_at? hv hn)
    obtain ⟨w, hw, hwv⟩ := Option.bind_eq_some_iff.1 hv
    cases hwv
    have htype : schema.typeOf? holder = some e := by
      obtain ⟨t, ht'⟩ := Value.isEntity_iff.1 (Value.isEntity_of_at? hv hn)
      cases (hnode.conforms hR ht hcurrent).2 t ht'
      rw [Schema.typeOf?, ht', Option.bind_some, he]
    exact (Address.current_child (Property.plain_of_mem_parts hp)).2
      ⟨holder, _, hcurrent, Schema.read_of_mem_references htype hr, hw⟩

/-- What a declared address leads on from. -/
theorem exists_of_parent? {parent : Address} (h : schema.Typed n type node target) (hp : node.parent? = some parent) :
    ∃ holder e r, schema.Typed n type parent holder ∧ schema.entity? holder = some e ∧ r ∈ e.references ∧
      node.path = parent.path.child r.property.name ∧ target = r.target := by
  cases h with
  | root => cases hp
  | child hnode he hr _ =>
    cases hp
    exact ⟨_, _, _, hnode, he, hr, rfl, rfl⟩

end Schema.Typed

namespace Store

variable {rows rows' : List Row} {r : Row} {type : String} {id : Value}

/-! ## Linked rows -/

/-- The entity of the first row holds that of the second one: the second row has the first one's identifier for its
parent, and its path and its type are those of a reference that the first one's type declares. -/
structure Holds (schema : Schema) (o r : Row) : Prop where
  parentId_eq : r.parentId = some o.id
  rootId_eq : o.rootId = r.rootId
  declared : ∃ e ref, schema.entity? o.type = some e ∧ ref ∈ e.references ∧ r.path = o.path.child ref.property.name ∧
    r.type = ref.target

/-- Each row below a root has a row that holds it. -/
def Linked (schema : Schema) (rows : List Row) : Prop := ∀ r ∈ rows, r.isRoot = false → ∃ o ∈ rows, Holds schema o r

/-- Whether rows are linked does not depend on the values stored. -/
theorem linked_map_bare : Linked schema (rows.map Row.bare) ↔ Linked schema rows := by
  constructor
  · intro h r hr hroot
    obtain ⟨o', ho', hholds⟩ := h r.bare (List.mem_map_of_mem hr) hroot
    obtain ⟨o, ho, rfl⟩ := List.mem_map.1 ho'
    exact ⟨o, ho, hholds.parentId_eq, hholds.rootId_eq, hholds.declared⟩
  · intro h
    refine List.forall_mem_map.2 fun r hr hroot => ?_
    obtain ⟨o, ho, hholds⟩ := h r hr hroot
    exact ⟨o.bare, List.mem_map_of_mem ho, hholds.parentId_eq, hholds.rootId_eq, hholds.declared⟩

/-- Rows stay linked without those at some paths and at the paths declared below these. -/
theorem Linked.clear {s : Store} {ps : List DeclaredPath} (h : Linked schema s.rows) (hps : schema.Closed ps) :
    Linked schema (s.clear id ps).rows := by
  intro r hr hroot
  obtain ⟨hmem, hkept⟩ := mem_clear.1 hr
  obtain ⟨o, ho, hholds⟩ := h r hmem hroot
  obtain ⟨e, ref, he, href, hpath, htype⟩ := hholds.declared
  refine ⟨o, mem_clear.2 ⟨ho, ?_⟩, hholds⟩
  rintro ⟨hid, p, hp, hptype, hppath⟩
  -- the holder went, so that its path is among the deleted ones and with it the paths declared below
  have hbelow : schema.Declares p.target p.path r.path r.type := by
    rw [hpath, htype, hppath]
    exact .here (hptype ▸ he) href
  exact hkept ⟨hholds.rootId_eq ▸ hid, _, hps p hp _ _ hbelow, rfl, rfl⟩

theorem Linked.append (h : Linked schema rows) (hr : r.isRoot = false → ∃ o ∈ rows, Holds schema o r) :
    Linked schema (rows ++ [r]) := by
  have hmono {x : Row} (hx : ∃ o ∈ rows, Holds schema o x) : ∃ o ∈ rows ++ [r], Holds schema o x :=
    hx.imp fun _ ho => ⟨List.mem_append_left _ ho.1, ho.2⟩
  exact List.forall_mem_append.2 ⟨fun x hx hroot => hmono (h x hx hroot),
    List.forall_mem_singleton.2 fun hroot => hmono (hr hroot)⟩

theorem RootStep.linked {n : Nat} {R : Value} {head : Action} {id? : Option Value}
    (h : RootStep schema n type R id head id? rows rows') (hrows : Linked schema rows) : Linked schema rows' := by
  cases h with
  | insert _ _ _ => exact hrows.append nofun
  | @update v _ _ _ =>
    rw [← linked_map_bare, map_bare_updateFirst, linked_map_bare]
    exact hrows

/-! ## Entities with rows -/

/-- The row of the entity at an address, below the root with an identifier. -/
structure Stands (schema : Schema) (R rootId : Value) (node : Address) (row : Row) : Prop where
  key_eq : schema.keyAt R node = some row.key
  ne_null : row.id ≠ .null
  rootId_eq : row.rootId = rootId
  path_eq : row.path = node.path

/-- The actions from a position on are about entities at some addresses, which have rows and keys of their own. -/
structure Traced (schema : Schema) (n : Nat) (type : String) (rootId : Value) (base : Nat) (before : List Address)
    (executed : List Action) (R : Value) (rows : List Row) : Prop where
  typed : ∀ x ∈ before, ∃ target, schema.Typed n type x target
  founded : Founded before
  stands : ∀ x ∈ before, ∃ row ∈ rows, Stands schema R rootId x row
  injective : ∀ x ∈ before, ∀ y ∈ before, schema.keyAt R x = schema.keyAt R y → x.links = y.links
  answers : List.Forall₂ (Answers schema R) before (executed.drop base)
  base_le : base ≤ executed.length

variable {n base j : Nat} {rootId parentId R R' v : Value} {before : List Address} {executed : List Action}
  {node parent : Address} {t name : String} {id? : Option Value} {s s' : Store} {w : Workspace} {columns : Fields}

namespace Traced

/-- One more entity with a row of its own, where the keys of those before stay. -/
theorem append (h : Traced schema n type rootId base before executed R rows)
    (hkeys : ∀ x ∈ before, schema.keyAt R' x = schema.keyAt R x) {target : String} (htyped : schema.Typed n type node target)
    (hleads : Leads (before.map Address.links) node.links) (hstands : Stands schema R' rootId node r)
    (hnew : r.key ∉ rows.map Row.key) {a : Action} (hanswers : Answers schema R' node a) :
    Traced schema n type rootId base (before ++ [node]) (executed ++ [a]) R' (rows ++ [r]) where
  typed := List.forall_mem_append.2 ⟨h.typed, List.forall_mem_singleton.2 ⟨target, htyped⟩⟩
  founded := h.founded.concat hleads
  stands := by
    refine List.forall_mem_append.2 ⟨fun x hx => ?_, List.forall_mem_singleton.2 ⟨r, by simp, hstands⟩⟩
    obtain ⟨row, hrow, hstands⟩ := h.stands x hx
    exact ⟨row, List.mem_append_left _ hrow, (hkeys x hx).trans hstands.key_eq, hstands.ne_null, hstands.rootId_eq,
      hstands.path_eq⟩
  injective := by
    have hne {x : Address} (hx : x ∈ before) : schema.keyAt R' x ≠ schema.keyAt R' node := by
      obtain ⟨row, hrow, hrowkey⟩ := h.stands x hx
      rw [hkeys x hx, hrowkey.key_eq, hstands.key_eq]
      intro heq
      exact hnew (Option.some.inj heq ▸ List.mem_map_of_mem hrow)
    intro x hx y hy heq
    rcases List.mem_append.1 hx with hx | hx <;> rcases List.mem_append.1 hy with hy | hy
    · exact h.injective x hx y hy (by rw [← hkeys x hx, ← hkeys y hy, heq])
    · exact absurd (List.mem_singleton.1 hy ▸ heq) (hne hx)
    · exact absurd (List.mem_singleton.1 hx ▸ heq.symm) (hne hy)
    · rw [List.mem_singleton.1 hx, List.mem_singleton.1 hy]
  answers := by
    rw [List.drop_append_of_le_length h.base_le]
    exact List.rel_append (forall₂_imp_of_mem h.answers fun x hx _ ha => ha.congr (hkeys x hx)) (.cons hanswers .nil)
  base_le := by
    rw [List.length_append]
    exact Nat.le_add_right_of_le h.base_le

section Insert

variable (h : Traced schema n type rootId base before executed R s.rows) (hadmits : schema.Admits type R)

include h hadmits

/-- What the store does for an insert below an entity that was carried out before. -/
theorem inserted_of_runs (hw : w.Holds schema n R) (hs : s.schema = schema)
    (hr : Rooted schema n type rootId executed R) (hj : before[j]? = some parent) (hnode : schema.Typed n type node t)
    (hruns : (Store.run w (.insert t node (some (base + j)) columns none) executed).Runs s id? s') :
    s'.schema = schema ∧ ∃ type' parentId v name id, schema.keyAt R parent = some (type', parentId) ∧ v.type? = some t ∧
      Inserted schema R rootId parentId node t columns id? s.rows s'.rows v name id := by
  obtain ⟨target, hparent⟩ := h.typed parent (List.mem_of_getElem? hj)
  obtain ⟨dependency, hdep, hans⟩ := exists_getElem?_of_forall₂ h.answers hj
  rw [List.getElem?_drop] at hdep
  obtain ⟨hschema, parentId, v, name, id, hkey, hins⟩ := hr.inserted_of_runs hw hs hdep hans hparent.plain
    hparent.origin_eq hnode.origin_eq hruns
  obtain ⟨x, hread⟩ := hins.read_eq
  obtain ⟨t', fields, e, rfl, -, -, -⟩ := Schema.read_eq_ok.1 hread
  cases (hnode.conforms hadmits.conforms hadmits.type_eq hins.current_eq).2 t' rfl
  exact ⟨hschema, _, parentId, _, name, id, hkey, rfl, hins⟩

omit hadmits in
/-- An entity that is inserted is not one that was carried out before. -/
theorem not_mem_links (hlen : s.rows.length < 2 ^ 64) (hnode : node.Plain) (hvt : v.type? = some t) {rows' : List Row}
    (hins : Inserted schema R rootId parentId node t columns id? s.rows rows' v name id) :
    node.links ∉ before.map Address.links := by
  intro hmem
  obtain ⟨x, hx, hlinks⟩ := List.mem_map.1 hmem
  obtain ⟨row, hrow, hstands⟩ := h.stands x hx
  have hkey : schema.keyAt R x = some (t, v.field name) := by
    rw [Schema.keyAt, hlinks, Address.at?_of_current hnode hins.current_eq, Option.bind_some]
    exact Schema.key?_eq_some.2 ⟨hvt, name, hins.property, rfl⟩
  have hrowkey : row.key = (t, v.field name) := Option.some.inj (hstands.key_eq.symm.trans hkey)
  rcases hins.id_eq with ⟨hnull, -⟩ | ⟨hid, -⟩
  · exact hstands.ne_null ((congrArg Prod.snd hrowkey).trans hnull)
  · exact hins.fresh hlen (hid ▸ hrowkey ▸ List.mem_map_of_mem hrow)

/-- The row of an insert is held by the row of the entity above. -/
theorem exists_holds (hj : before[j]? = some parent) (hparent : node.parent? = some parent)
    (hnode : schema.Typed n type node t) {type' : String} (hkey : schema.keyAt R parent = some (type', parentId))
    {value : Value} :
    ∃ o ∈ s.rows, Holds schema o ⟨t, id, rootId, node.path, some parentId, columns, value⟩ := by
  obtain ⟨o, ho, hstands⟩ := h.stands parent (List.mem_of_getElem? hj)
  obtain ⟨target, e, ref, htyped, he, href, hpath, ht⟩ := hnode.exists_of_parent? hparent
  have hokey : o.key = (type', parentId) := Option.some.inj (hstands.key_eq.symm.trans hkey)
  obtain ⟨y, hy, hykey⟩ := Option.bind_eq_some_iff.1 hstands.key_eq
  have hyt := (Schema.key?_eq_some.1 hykey).1
  have hcurrent := htyped.current_of_at? hadmits.conforms hadmits.type_eq hy (Value.isEntity_iff.2 ⟨_, hyt⟩)
  have htarget := (htyped.conforms hadmits.conforms hadmits.type_eq hcurrent).2 o.type hyt
  refine ⟨o, ho, congrArg some (congrArg Prod.snd hokey).symm, hstands.rootId_eq, e, ref, htarget ▸ he, href, ?_, ht⟩
  rw [hstands.path_eq]
  exact hpath

/-- An identifier put in place changes no other key. -/
theorem keyAt_put (hs : schema.Separate) (hnode : schema.Typed n type node t)
    (hleads : Leads (before.map Address.links) node.links)
    (hprecedes : ∀ p ∈ before, Value.Precedes p.links node.links) (hv : node.current schema R = .ok v)
    (hvt : v.type? = some t) (hname : schema.idProperty? t = some name) (hplace : node.links ∉ before.map Address.links)
    (hfresh : (t, id) ∉ s.rows.map Row.key) :
    schema.keyAt (R.put node.links (v.withField name id)) node = some (t, id) ∧
      ∀ x ∈ before, schema.keyAt (R.put node.links (v.withField name id)) x = schema.keyAt R x := by
  have hat := Address.at?_of_current hnode.plain hv
  have hvn := Value.isEntity_iff.2 ⟨t, hvt⟩
  have hshown := hnode.shown hs hadmits.conforms hadmits.type_eq hv
  have hkey := Schema.key?_withField_of_idProperty? hvt hname id
  have hfirm : Value.Firm node.links R (v.withField name id) := by
    refine hleads.firm hshown ?_ ?_
    · refine List.forall_mem_map.2 fun x hx => List.forall_mem_map.2 fun y hy heq => ?_
      exact h.injective x hx y hy heq
    · refine List.forall_mem_map.2 fun x hx heq => ?_
      obtain ⟨row, hrow, hstands⟩ := h.stands x hx
      have hrowkey : row.key = (t, id) := Option.some.inj (hstands.key_eq.symm.trans (heq.trans hkey))
      exact hfresh (hrowkey ▸ List.mem_map_of_mem hrow)
  refine ⟨?_, fun x hx => ?_⟩
  · rw [Schema.keyAt, Value.at?_put_self hat hvn hfirm]
    exact hkey
  · obtain ⟨row, -, hstands⟩ := h.stands x hx
    obtain ⟨target, htyped⟩ := h.typed x hx
    obtain ⟨y, hy, hyk⟩ := Option.bind_eq_some_iff.1 hstands.key_eq
    have hyt := (Schema.key?_eq_some.1 hyk).1
    have hyn := Value.isEntity_iff.2 ⟨_, hyt⟩
    have hxshown := htyped.shown hs hadmits.conforms hadmits.type_eq
      (htyped.current_of_at? hadmits.conforms hadmits.type_eq hy hyn)
    have hne : x.links ≠ node.links := fun heq => hplace (heq ▸ List.mem_map_of_mem hx)
    rw [hstands.key_eq, ← hyk]
    exact Value.key?_at?_put hname hshown hxshown hat hvt (Value.untouched_of_firm hat hvn hfirm (hprecedes x hx)) hne hy hyn

/-- One more insert, at a place that follows those before. -/
theorem step (hs : schema.Separate) (hw : w.Holds schema n R) (hschema : s.schema = schema)
    (hr : Rooted schema n type rootId executed R) (hj : before[j]? = some parent) (hparent : node.parent? = some parent)
    (hnode : schema.Typed n type node t) (hleads : Leads (before.map Address.links) node.links)
    (hprecedes : ∀ p ∈ before, Value.Precedes p.links node.links) (hlen : s.rows.length < 2 ^ 64) {a : Action}
    (ha : a = .insert t node (some (base + j)) columns none) (hruns : (Store.run w a executed).Runs s id? s') :
    ∃ row, s'.rows = s.rows ++ [row] ∧ (∃ o ∈ s.rows, Holds schema o row) ∧
      ∀ R', BackFills schema (a.answered id?) R R' →
        Traced schema n type rootId base (before ++ [node]) (executed ++ [a.answered id?]) R' s'.rows := by
  subst ha
  obtain ⟨-, type', parentId, v, name, id, hkey, hvt, hins⟩ := h.inserted_of_runs hadmits hw hschema hr hj hnode hruns
  have hplace := h.not_mem_links hlen hnode.plain hvt hins
  have hfresh := hins.fresh hlen
  obtain ⟨value, hrows⟩ := hins.rows_eq
  refine ⟨_, hrows, h.exists_holds hadmits hj hparent hnode hkey, fun R' hfills => ?_⟩
  have happend (hkeyR' : schema.keyAt R' node = some (t, id))
      (hkeys : ∀ x ∈ before, schema.keyAt R' x = schema.keyAt R x) :
      Traced schema n type rootId base (before ++ [node])
        (executed ++ [(Action.insert t node (some (base + j)) columns none).answered id?]) R' s'.rows := by
    have hstands : Stands schema R' rootId node ⟨t, id, rootId, node.path, some parentId, columns, value⟩ :=
      ⟨hkeyR', hins.ne_null, rfl, rfl⟩
    rw [hrows]
    exact h.append hkeys hnode hleads hstands hfresh (hins.answers hkeyR')
  rcases hins.filled hnode.plain hvt hfills with ⟨-, rfl⟩ | ⟨rfl, hkeyR'⟩
  · obtain ⟨hkeyR', hkeys⟩ := h.keyAt_put hadmits hs hnode hleads hprecedes hins.current_eq hvt hins.property hplace hfresh
    exact happend hkeyR' hkeys
  · exact happend hkeyR' fun _ _ => rfl

end Insert

end Traced

/-! ## Runs -/

/-- What holds along the inserts of a plan: the rows are linked, and what is to come is in order after what was carried
out. -/
def Lined (schema : Schema) (n : Nat) (type : String) (base : Nat) (executed pending : List Action) (rootId R : Value)
    (rows : List Row) : Prop :=
  schema.Admits type R ∧ (rows.length < 2 ^ 64 →
    Linked schema rows ∧ ∃ before, Traced schema n type rootId base before executed R rows ∧ Ordered base before pending)

section Run

variable {root id₀ : Value} {set : ChangeSet} {ps : List DeclaredPath} {head : Action} {inserts pending : List Action}

/-- The root action of a plan begins the rows that are linked. -/
theorem Parts.begins_lined (h : Parts schema root set n R type id₀ ps head inserts) (hs : schema.Separate)
    (hsound : Sound schema s.rows) (hlinked : Linked schema s.rows) (hpending : pending <+: inserts) :
    Begins schema n type R head pending (ps.map fun p => .delete p.target id₀ p.path) (s.clear id₀ ps).rows
      (Lined schema n type ps.length) (fun rows => rows.length < 2 ^ 64 → Linked schema rows) := by
  intro id id? rows' hstep
  have hclosed := h.clears.closed List.prefix_rfl
  have hlinked' := hstep.linked (hlinked.clear hclosed)
  have hordered : Ordered ps.length [.root n] pending := by
    obtain ⟨rest, rfl⟩ := hpending
    exact h.ordered.of_append
  refine ⟨fun _ => hlinked', fun R' hR => ⟨h.admits hs hR, fun hlen => ⟨hlinked', [.root n], ?_, hordered⟩⟩⟩
  obtain ⟨hsound', row, hrow, hrootRow⟩ := hstep.sound (hsound.clear hclosed) hlen
  obtain ⟨htype, hroot, rfl⟩ := isRootRow_iff.1 hrootRow
  have hrooted : Rooted schema n type row.id ([] ++ [head.answered id?]) R' := hstep.rooted h.type_eq hR
  have hkey : schema.keyAt R' (.root n) = some (type, row.id) := hrooted.key_eq
  refine ⟨List.forall_mem_singleton.2 ⟨type, .root⟩, List.forall_mem_singleton.2 (Leads.nil _), ?_, ?_, ?_, ?_⟩
  · refine List.forall_mem_singleton.2 ⟨row, hrow, ?_, h.ne_null hstep, (hsound'.root row hrow hroot).1,
      Path.isRoot_iff.1 hroot⟩
    rw [hkey, Row.key, htype]
  · exact List.forall_mem_singleton.2 (List.forall_mem_singleton.2 fun _ => rfl)
  · rw [List.drop_append_of_le_length (List.length_map _).ge, List.drop_of_length_le (List.length_map _).le]
    refine .cons ⟨h.clears.address?_answered id?, row.id, ?_, fun _ => hstep.eq_of_generatedId⟩ .nil
    rw [hkey, Action.type_answered, h.clears.type_head]
  · rw [List.length_append, List.length_map]
    exact Nat.le_add_right ..

/-- Inserts in order keep the rows linked. -/
theorem Parts.continues_lined (h : Parts schema root set n R type id₀ ps head inserts) (hs : schema.Separate)
    (base : Nat) :
    Continues schema n type inserts (Lined schema n type base) (fun rows => rows.length < 2 ^ 64 → Linked schema rows) := by
  intro executed a rest id R' w s id? s' ⟨hadmits, hlined⟩ ha hrooted hw hschema hruns
  have havoids := h.avoids a ha
  obtain ⟨row, -, hrows, -⟩ := hrooted.adds_of_runs hw hschema havoids hruns
  have hstep (hlen : s'.rows.length < 2 ^ 64) : Linked schema s'.rows ∧
      ∀ R'', BackFills schema (a.answered id?) R' R'' → ∃ before,
        Traced schema n type id base before (executed ++ [a.answered id?]) R'' s'.rows ∧ Ordered base before rest := by
    have hlt : s.rows.length < 2 ^ 64 := by
      rw [hrows, List.length_append] at hlen
      omega
    obtain ⟨hlinked, before, htraced, hordered⟩ := hlined hlt
    cases hordered with
    | again hj hparent hmem =>
      obtain ⟨-, hnode⟩ := h.typed _ ha _ rfl
      obtain ⟨-, _, _, _, _, _, -, hvt, hins⟩ := htraced.inserted_of_runs hadmits hw hschema hrooted hj hnode hruns
      exact (htraced.not_mem_links hlt hnode.plain hvt hins hmem).elim
    | cons hj hparent hleads hprecedes hrest =>
      obtain ⟨-, hnode⟩ := h.typed _ ha _ rfl
      obtain ⟨row, hrows, hholds, htraced'⟩ := htraced.step hadmits hs hw hschema hrooted hj hparent hnode hleads
        hprecedes hlt rfl hruns
      refine ⟨?_, fun R'' hR => ⟨_, htraced' R'' hR, hrest⟩⟩
      rw [hrows]
      exact hlinked.append fun _ => hholds
  exact ⟨fun hlen => (hstep hlen).1, fun R'' hR => ⟨hadmits.backFills hs (havoids.plain_answered id?) hR,
    fun hlen => ⟨(hstep hlen).1, (hstep hlen).2 R'' hR⟩⟩⟩

/-- Rows stay linked between the actions of a change set that stores an aggregate. -/
theorem Parts.linked_of_cut {other : Option Schema} (h : Parts schema root set n R type id₀ ps head inserts)
    (hs : schema.Separate) (hw : w.Holds schema n R) (ho : other.getD schema = schema) (hschema : s.schema = schema)
    (hsound : Sound schema s.rows) (hlinked : Linked schema s.rows) (k : Nat)
    (hlen : (ChangeSet.execute other executor { set with actions := set.actions.take k } w s).state.rows.length < 2 ^ 64) :
    Linked schema (ChangeSet.execute other executor { set with actions := set.actions.take k } w s).state.rows := by
  rcases Nat.lt_or_ge ps.length k with hk | hk
  · obtain ⟨-, hrows⟩ := h.execute_cut hw ho hschema hk (K := fun rows => rows.length < 2 ^ 64 → Linked schema rows)
      (fun _ => hlinked.clear (h.clears.closed List.prefix_rfl))
      (fun pending hpending => h.begins_lined hs hsound hlinked hpending) (h.continues_lined hs ps.length)
    exact hrows hlen
  · rw [h.execute_clears other w s hk]
    exact hlinked.clear (h.clears.closed (List.take_prefix ..))

end Run

/-! ## Reachable stores -/

/-- The rows of reachable stores are linked. -/
theorem Reachable.linked (hs : schema.Separate) (h : Reachable schema s) : Linked schema s.rows := by
  induction h with
  | empty => exact nofun
  | @store s s' root hreachable hcanonical hconforms hstores hlen ih =>
    obtain ⟨hschema, hsound⟩ := hreachable.sound hs
    obtain ⟨k, hplanned, hw, ho⟩ := hstores
    obtain ⟨type, id, ps, head, inserts, h⟩ := Plans.parts hs ⟨hcanonical, hconforms, hplanned⟩
    exact h.linked_of_cut hs hw ho hschema hsound ih k hlen
  | delete _ hdeletes ih =>
    obtain ⟨qs, hclosed, -, rfl⟩ := hdeletes.clear
    exact ih.clear hclosed

/-- No row is an orphan. In every store that executing change sets leads to, also between two actions and after a failure,
each row below a root has a row with the identifier that it keeps of its parent, below the same root, at its path without
the last property. Each root row has its own identifier for that of its root, no parent and no columns. -/
theorem parent_of_reachable (hs : schema.Separate) (h : Reachable schema s) :
    ∀ r ∈ s.rows,
      (r.path ≠ .root → ∃ o ∈ s.rows, r.parentId = some o.id ∧ o.rootId = r.rootId ∧
        o.path.segments = r.path.segments.dropLast) ∧
      (r.path = .root → r.rootId = r.id ∧ r.parentId = none ∧ r.columns = []) := by
  intro r hr
  constructor
  · intro hpath
    have hroot : r.isRoot = false := Bool.eq_false_iff.2 fun hroot => hpath (Path.isRoot_iff.1 hroot)
    obtain ⟨o, ho, hholds⟩ := h.linked hs r hr hroot
    obtain ⟨e, ref, -, -, heq, -⟩ := hholds.declared
    refine ⟨o, ho, hholds.parentId_eq, hholds.rootId_eq, ?_⟩
    rw [heq, Path.child, List.dropLast_concat]
  · intro hpath
    exact (h.sound hs).2.root r hr (Path.isRoot_iff.2 hpath)

/-- The order is being stored: its row and those of two items below it. -/
theorem parent_of_reachable_order :
    ∃ s, Reachable Shop.entities s ∧ s.rows.map Row.path = [.root, ⟨["items"]⟩, ⟨["items"]⟩] ∧
      ∀ r ∈ s.rows,
        (r.path ≠ .root → ∃ o ∈ s.rows, r.parentId = some o.id ∧ o.rootId = r.rootId ∧
          o.path.segments = r.path.segments.dropLast) ∧
        (r.path = .root → r.rootId = r.id ∧ r.parentId = none ∧ r.columns = []) := by
  have hreachable : Reachable Shop.entities (ChangeSet.execute none executor
      { Shop.changes (ChangeSet.planInsert 1 (.empty Shop.entities) Shop.order) with
        actions := (Shop.changes (ChangeSet.planInsert 1 (.empty Shop.entities) Shop.order)).actions.take 3 }
      Shop.planned (.empty Shop.entities)).state :=
    .store .empty (by decide) Shop.conforms_order
      (.intro 3 Shop.planned_order ⟨rfl, rfl⟩ (show none.getD Shop.entities = Shop.entities from rfl)) (by decide +kernel)
  exact ⟨_, hreachable, by decide +kernel, parent_of_reachable (by decide) hreachable⟩

end Store

end Aggregate
