import Mathlib
import Aggregate.Proofs.Identity
import Aggregate.Proofs.Soundness

/-!
# Stored aggregates

The rows of an aggregate after it was stored.

- `Mirrors`: the row of the entity at an address;
- `Store.Tracks`: the rows and the actions so far, one for each occurrence carried out; `Store.Tracks.step`: one more
  insert;
- `Store.Following`: the rows follow the inserts of a plan, or a set has lost an element that is still to be inserted;
- `Store.mirrors_of_execute`: once an aggregate is stored, its rows are those of its entities.
-/

namespace Aggregate

open Value (Lost lasts)

variable {schema : Schema}

/-! ## Lists side by side -/

section Lists

variable {α β κ : Type} {P : α → β → Prop} {xs : List α} {ys : List β}

theorem exists_of_forall₂ (h : List.Forall₂ P xs ys) {x : α} (hx : x ∈ xs) : ∃ y ∈ ys, P x y := by
  induction h with
  | nil => cases hx
  | cons hxy _ ih =>
    rcases List.mem_cons.1 hx with rfl | hx
    · exact ⟨_, List.mem_cons_self, hxy⟩
    · obtain ⟨y, hy, hp⟩ := ih hx
      exact ⟨y, List.mem_cons_of_mem _ hy, hp⟩

/-- What is next to elements with keys of their own has these keys once. -/
theorem eq_of_forall₂_nodup {f : α → Option κ} {g : β → κ} (h : List.Forall₂ (fun x y => f x = some (g y)) xs ys)
    (hn : (ys.map g).Nodup) {x x' : α} (hx : x ∈ xs) (hx' : x' ∈ xs) (heq : f x = f x') : x = x' := by
  induction h with
  | nil => cases hx
  | @cons a b as bs hab hrest ih =>
    rw [List.map_cons, List.nodup_cons] at hn
    have hne {z : α} (hz : z ∈ as) (hza : f a = f z) : False := by
      obtain ⟨y, hy, hzy⟩ := exists_of_forall₂ hrest hz
      rw [hab, hzy, Option.some.injEq] at hza
      exact hn.1 (hza ▸ List.mem_map_of_mem hy)
    rcases List.mem_cons.1 hx with rfl | hxs <;> rcases List.mem_cons.1 hx' with rfl | hxs'
    · rfl
    · exact (hne hxs' heq).elim
    · exact (hne hxs heq.symm).elim
    · exact ih hn.2 hxs hxs'

end Lists

/-! ## Rows of entities -/

/-- The row of the entity at an address. -/
structure Mirrors (schema : Schema) (R : Value) (node : Address) (row : Row) : Prop where
  key_eq : schema.keyAt R node = some row.key
  ne_null : row.id ≠ .null
  path_eq : row.path = node.path
  parent_eq : row.parentId = node.parent?.bind fun p => (schema.keyAt R p).map (·.2)
  columns_eq : row.columns = node.keyColumns

theorem Mirrors.congr {R R' : Value} {node : Address} {row : Row} (h : Mirrors schema R node row)
    (hn : schema.keyAt R' node = schema.keyAt R node)
    (hp : ∀ p, node.parent? = some p → schema.keyAt R' p = schema.keyAt R p) : Mirrors schema R' node row := by
  refine ⟨hn.trans h.key_eq, h.ne_null, h.path_eq, h.parent_eq.trans ?_, h.columns_eq⟩
  exact Option.bind_congr fun p hparent => by rw [hp p hparent]

namespace Store

/-! ## One more insert -/

/-- The rows of a root and the actions from a position on, one for each occurrence that was carried out. -/
structure Tracks (schema : Schema) (u rootId : Value) (base : Nat) (done : List Occurrence) (executed : List Action)
    (R : Value) (rows : List Row) : Prop where
  erase_eq : R.erase schema.isId = u
  mirrors : List.Forall₂ (fun o row => Mirrors schema R o.node row) done (rows.filter fun r => r.rootId == rootId)
  answers : List.Forall₂ (fun o a => Answers schema R o.node a) done (executed.drop base)
  base_le : base ≤ executed.length
  parents : ∀ o ∈ done, ∀ p, o.node.parent? = some p → ∃ holder ∈ done, holder.node = p

variable {other : Option Schema} {limit n base j : Nat} {w w' : Workspace} {s s' : Store} {R R' u rootId : Value}
  {type : String} {id? : Option Value} {done more : List Occurrence} {o holder : Occurrence}
  {executed rest : List Action} {a : Action} {rows : List Row}

namespace Tracks

theorem eq_of_keyAt (h : Tracks schema u rootId base done executed R rows) (hn : (rows.map Row.key).Nodup)
    {p q : Occurrence} (hp : p ∈ done) (hq : q ∈ done) (heq : schema.keyAt R p.node = schema.keyAt R q.node) : p = q :=
  eq_of_forall₂_nodup (f := fun o => schema.keyAt R o.node) (g := Row.key)
    (h.mirrors.imp fun _ _ hm => hm.key_eq) (hn.sublist (List.filter_sublist.map _)) hp hq heq

/-- The key of an occurrence carried out is that of a row. -/
theorem exists_row (h : Tracks schema u rootId base done executed R rows) {p : Occurrence} (hp : p ∈ done) :
    ∃ r ∈ rows, schema.keyAt R p.node = some r.key ∧ r.id ≠ .null := by
  obtain ⟨r, hr, hm⟩ := exists_of_forall₂ h.mirrors hp
  exact ⟨r, List.mem_of_mem_filter hr, hm.key_eq, hm.ne_null⟩

/-- One more row and one more action, where the keys of what was carried out before stay. -/
theorem append (h : Tracks schema u rootId base done executed R rows) (hu : R'.erase schema.isId = u)
    (hkeys : ∀ p ∈ done, schema.keyAt R' p.node = schema.keyAt R p.node) {row : Row} (hrow : row.rootId = rootId)
    (hmirrors : Mirrors schema R' o.node row) (hanswers : Answers schema R' o.node a)
    (hparent : ∀ p, o.node.parent? = some p → ∃ holder ∈ done, holder.node = p) :
    Tracks schema u rootId base (done ++ [o]) (executed ++ [a]) R' (rows ++ [row]) where
  erase_eq := hu
  mirrors := by
    rw [List.filter_append, List.filter_singleton, hrow, beq_self_eq_true]
    refine List.rel_append (forall₂_imp_of_mem h.mirrors fun p hp _ hm => ?_) (.cons hmirrors .nil)
    refine hm.congr (hkeys p hp) fun q hq => ?_
    obtain ⟨holder, hholder, rfl⟩ := h.parents p hp q hq
    exact hkeys holder hholder
  answers := by
    rw [List.drop_append_of_le_length h.base_le]
    exact List.rel_append (forall₂_imp_of_mem h.answers fun p hp _ ha => ha.congr (hkeys p hp)) (.cons hanswers .nil)
  base_le := by
    rw [List.length_append]
    exact Nat.le_add_right_of_le h.base_le
  parents := by
    have hmono {x : Occurrence} {p : Address} (hx : x ∈ done ∧ x.node = p) : x ∈ done ++ [o] ∧ x.node = p :=
      ⟨List.mem_append_left _ hx.1, hx.2⟩
    refine List.forall_mem_append.2 ⟨fun x hx p hp => (h.parents x hx p hp).imp fun _ => hmono, ?_⟩
    exact List.forall_mem_singleton.2 fun p hp => (hparent p hp).imp fun _ => hmono

end Tracks

theorem Tracks.inserted_of_runs (ht : Tracks schema u rootId base done executed R s.rows) (hs : schema.Separate)
    (hR : R.Ordered schema.isId) (hw : w.Holds schema n R) (hschema : s.schema = schema)
    (hr : Rooted schema n type rootId executed R) (hdone : ∀ x ∈ done, Occurs schema n u x) (ho : Occurs schema n u o)
    (hj : done[j]? = some holder) {t : String} (hot : o.value.type? = some t) {columns : Fields}
    (h : (Store.run w (.insert t o.node (some (base + j)) columns none) executed).Runs s id? s') :
    ∃ type' parentId v name id, schema.keyAt R holder.node = some (type', parentId) ∧ v.type? = some t ∧
      Inserted schema R rootId parentId o.node t columns id? s.rows s'.rows v name id := by
  have hholder := hdone holder (List.mem_of_getElem? hj)
  -- the holder was carried out before
  obtain ⟨dependency, hdep, hans⟩ := exists_getElem?_of_forall₂ ht.answers hj
  rw [List.getElem?_drop] at hdep
  obtain ⟨-, parentId, v, name, id, hkey, hins⟩ := hr.inserted_of_runs hw hschema hdep hans hholder.plain
    hholder.origin_eq ho.origin_eq h
  refine ⟨_, parentId, v, name, id, hkey, ?_, hins⟩
  obtain ⟨x, hx, hxo, -⟩ := (ht.erase_eq ▸ ho).current hs.spares hR
  cases hx.symm.trans hins.current_eq
  rw [← hot, ← hxo, Value.type?_erase]

section Put

variable {v id : Value} {t name : String}

/-- The way to an occurrence shows in the root as it stands. -/
theorem Tracks.shown (ht : Tracks schema u rootId base done executed R rows) (hs : schema.Separate)
    (hR : R.Ordered schema.isId) (ho : o ∈ schema.occurrences n u) : Value.Shown schema.isId o.node.links R := by
  obtain rfl := ht.erase_eq
  obtain ⟨-, -, -, hshown⟩ := (mem_occurrences_iff.1 ho).current hs.spares hR
  exact hshown _ hs.spares

/-- No set drops an element for an identifier put in place, or one that comes later gets lost. -/
theorem Tracks.fits_or_lost (ht : Tracks schema u rootId base done executed R rows) (hs : schema.Separate)
    (hR : R.Ordered schema.isId) (hn : (rows.map Row.key).Nodup)
    (hocc : schema.occurrences n u = done ++ o :: more) (hv : R.at? o.node.links = some v) (hvt : v.type? = some t)
    (hname : schema.idProperty? t = some name) (hfresh : (t, id) ∉ rows.map Row.key) :
    Value.Fits o.node.links R (v.withField name id) ∨
      Lost schema.isId u (more.map (·.node.links)) ((R.put o.node.links (v.withField name id)).erase schema.isId) := by
  have hshown := ht.shown hs hR (show o ∈ schema.occurrences n u by rw [hocc]; simp)
  obtain rfl := ht.erase_eq
  have hkey := Schema.key?_withField_of_idProperty? hvt hname id
  have hsame := Value.erase_withField_of_hidden hvt (BackFills.isId_of_idProperty? hname) id
  have hvn := Value.isEntity_iff.2 ⟨t, hvt⟩
  have hxn : (v.withField name id).isEntity = true := by rw [Value.isEntity_withField, hvn]
  by_cases hd : (R.erase schema.isId).SetsNodup
  · exact .inl (Value.fits_of_setsNodup hv (Value.isEntity_ne_null hvn) hR hshown hd hsame)
  have hleads : Leads (done.map (·.node.links)) o.node.links :=
    Occurrence.leads hocc (.nil _) fun p hp => List.mem_map_of_mem hp
  have hfirm : Value.Firm o.node.links R (v.withField name id) := by
    refine hleads.firm hshown (List.forall_mem_map.2 fun p hp => List.forall_mem_map.2 fun q hq heq => ?_)
      (List.forall_mem_map.2 fun p hp heq => ?_)
    · rw [ht.eq_of_keyAt hn hp hq heq]
    · obtain ⟨r, hr, hrow, -⟩ := ht.exists_row hp
      have hrkey : r.key = (t, id) := Option.some.inj (hrow.symm.trans (heq.trans hkey))
      exact hfresh (hrkey ▸ List.mem_map_of_mem hr)
  refine (Value.fits_or_short hv hvn hxn hshown hfirm).imp_right ?_
  rintro ⟨ks, hks, hshort⟩
  -- the last elements of the sets on the way are still to come
  have htrailing : Trailing (R.erase schema.isId) [] (schema.occurrences n (R.erase schema.isId)) :=
    Occurrence.trailing_all hs.spares hR .root (List.Sublist.refl _)
  rw [hocc] at htrailing
  have hlasts := htrailing.of_append
  rw [List.append_nil] at hlasts
  exact ⟨by rwa [Value.erase_erase le_rfl], ks, hks.sublist.trans hlasts, hshort⟩

/-- An identifier put in place, where no set drops an element, changes no other key. -/
theorem Tracks.keyAt_put_of_fits (ht : Tracks schema u rootId base done executed R rows) (hs : schema.Separate)
    (hR : R.Ordered schema.isId) (hocc : schema.occurrences n u = done ++ o :: more)
    (hv : R.at? o.node.links = some v) (hvt : v.type? = some t) (hname : schema.idProperty? t = some name)
    (hnull : v.field name = .null) (hfits : Value.Fits o.node.links R (v.withField name id)) :
    (R.put o.node.links (v.withField name id)).erase schema.isId = u ∧
      schema.keyAt (R.put o.node.links (v.withField name id)) o.node = some (t, id) ∧
      ∀ p ∈ done, schema.keyAt (R.put o.node.links (v.withField name id)) p.node = schema.keyAt R p.node := by
  have hshown {x : Occurrence} (hx : x ∈ done ++ o :: more) := ht.shown hs hR (hocc ▸ hx)
  have hso := hshown (x := o) (by simp)
  obtain rfl := ht.erase_eq
  have hvn := Value.isEntity_iff.2 ⟨t, hvt⟩
  refine ⟨?_, ?_, fun p hp => ?_⟩
  · have hsame := Value.erase_withField_of_hidden hvt (BackFills.isId_of_idProperty? hname) id
    exact Value.erase_put_of_erase_eq hv (Value.isEntity_ne_null hvn) hR hso hfits hsame
  · rw [Schema.keyAt, Value.at?_put_self hv hvn hfits.firm]
    exact Schema.key?_withField_of_idProperty? hvt hname id
  · obtain ⟨r, -, hkey, hne⟩ := ht.exists_row hp
    obtain ⟨y, hy, hyk⟩ := Option.bind_eq_some_iff.1 hkey
    obtain ⟨hyt, name', hname', hid⟩ := Schema.key?_eq_some.1 hyk
    have hyn := Value.isEntity_iff.2 ⟨_, hyt⟩
    have hplace : p.node.links ≠ o.node.links := by
      intro heq
      -- the entity there has no identifier yet
      rw [heq, hv] at hy
      cases hy
      cases hvt.symm.trans hyt
      cases hname.symm.trans hname'
      exact hne (hid.symm.trans hnull)
    rw [hkey, ← hyk]
    exact Value.key?_at?_put hname hso (hshown (List.mem_append_left _ hp)) hv hvt
      (Value.untouched_of_fits hv hvn hfits _) hplace hy hyn

end Put

/-! ## Following the inserts -/

/-- The rows of a root follow the inserts of a plan, or a set has lost an element that is still to be inserted. -/
inductive Following (schema : Schema) (n : Nat) (u rootId : Value) (base : Nat) (executed pending : List Action)
    (R : Value) (rows : List Row) : Prop
  | exact {done more : List Occurrence} : Tracks schema u rootId base done executed R rows →
      (rows.map Row.key).Nodup → schema.occurrences n u = done ++ more → Inserts base done more pending →
      Following schema n u rootId base executed pending R rows
  | lost : Lost schema.isId u (places pending) (R.erase schema.isId) →
      Following schema n u rootId base executed pending R rows

/-- One more insert carried out, for the next occurrence. -/
theorem Tracks.step (ht : Tracks schema u rootId base done executed R rows) (hs : schema.Separate)
    (hR : R.Ordered schema.isId) (hn : (rows.map Row.key).Nodup)
    (hocc : schema.occurrences n u = done ++ o :: more) {t type' : String} {v id parentId : Value} {name : String}
    {rows' : List Row} (hkeyp : schema.keyAt R holder.node = some (type', parentId)) (hvt : v.type? = some t)
    (hins : Inserted schema R rootId parentId o.node t o.node.keyColumns id? rows rows' v name id)
    (hlen : rows.length < 2 ^ 64) (hholder : holder ∈ done) (hparent : o.node.parent? = some holder.node) {a : Action}
    (ha : a = .insert t o.node (some (base + j)) o.node.keyColumns none)
    (hfills : BackFills schema (a.answered id?) R R') :
    Tracks schema u rootId base (done ++ [o]) (executed ++ [a.answered id?]) R' rows' ∧ (rows'.map Row.key).Nodup ∨
      Lost schema.isId u (more.map (·.node.links)) (R'.erase schema.isId) := by
  obtain ⟨value, rfl⟩ := hins.rows_eq
  have hnodup : ((rows ++ [(⟨t, id, rootId, o.node.path, some parentId, o.node.keyColumns, value⟩ : Row)]).map
      Row.key).Nodup := Row.nodup_keys_append hn (hins.fresh hlen)
  have hlinked : ∀ p, o.node.parent? = some p → ∃ x ∈ done, x.node = p := by
    intro p hp
    cases hparent.symm.trans hp
    exact ⟨holder, hholder, rfl⟩
  subst ha
  have happend (hu : R'.erase schema.isId = u) (hkey : schema.keyAt R' o.node = some (t, id))
      (hkeys : ∀ p ∈ done, schema.keyAt R' p.node = schema.keyAt R p.node) :
      Tracks schema u rootId base (done ++ [o])
        (executed ++ [(Action.insert t o.node (some (base + j)) o.node.keyColumns none).answered id?]) R'
        (rows ++ [⟨t, id, rootId, o.node.path, some parentId, o.node.keyColumns, value⟩]) := by
    refine ht.append hu hkeys rfl ⟨hkey, hins.ne_null, rfl, ?_, rfl⟩ (hins.answers hkey) hlinked
    rw [hparent, Option.bind_some, hkeys holder hholder, hkeyp, Option.map_some]
  have hplain : o.node.Plain := (mem_occurrences_iff.1 (hocc ▸ (by simp) : o ∈ schema.occurrences n u)).plain
  rcases hins.filled hplain hvt hfills with ⟨hnull, rfl⟩ | ⟨rfl, hkey⟩
  · have hat := Address.at?_of_current hplain hins.current_eq
    refine (ht.fits_or_lost hs hR hn hocc hat hvt hins.property (hins.fresh hlen)).imp_left fun hfits => ?_
    obtain ⟨hu, hkey, hkeys⟩ := ht.keyAt_put_of_fits hs hR hocc hat hvt hins.property hnull hfits
    exact ⟨happend hu hkey hkeys, hnodup⟩
  · exact .inl ⟨happend ht.erase_eq hkey fun _ _ => rfl, hnodup⟩

/-- What was lost of the elements still to be inserted is not the next one that the store inserts. -/
theorem lost_of_runs (hlost : Lost schema.isId u (places (a :: rest)) (R.erase schema.isId)) (hs : schema.Separate)
    (hadmits : schema.Admits type R) (hw : w.Holds schema n R)
    (htyped : ∀ node, a.address? = some node → schema.Typed n type node a.type) (ha : a.Avoids schema n type)
    (hruns : (Store.run w a executed).Runs s id? s') (hfills : BackFills schema (a.answered id?) R R') :
    Lost schema.isId u (places rest) (R'.erase schema.isId) := by
  obtain ⟨t, node, hold, l, links, rfl, hplain, horigin, -⟩ := ha
  obtain ⟨-, -, -, p, node', v, name, -, -, -, hp, -⟩ := runs_insert hruns
  cases hp.address
  -- the action has found its entity
  have hv := hp.current
  rw [hw.current horigin] at hv
  have hshown := (htyped node rfl).shown hs hadmits.conforms hadmits.type_eq hv
  have hrest : Lost schema.isId u (places rest) (R.erase schema.isId) := by
    refine Lost.of_cons (p := node.links) hlost ?_
    rw [Value.at?_erase hshown, Address.at?_of_current hplain hv]
    simp
  rcases hfills.retouches (fun node hnode => by rw [Action.address?_answered] at hnode; cases hnode; exact hplain) with
    rfl | ⟨node', -, hretouches⟩
  · exact hrest
  · exact hrest.retouches hretouches hadmits.ordered

theorem Following.step (h : Following schema n u rootId base executed (a :: rest) R s.rows) (hs : schema.Separate)
    (hR : R.Ordered schema.isId) (hc : schema.Conforms R) (ht : R.type? = some type) (hw : w.Holds schema n R)
    (hr : Rooted schema n type rootId executed R) (hschema : s.schema = schema)
    (htyped : ∀ node, a.address? = some node → schema.Typed n type node a.type) (ha : a.Avoids schema n type)
    (hlen : s.rows.length < 2 ^ 64) (hruns : (Store.run w a executed).Runs s id? s')
    (hfills : BackFills schema (a.answered id?) R R') :
    Following schema n u rootId base (executed ++ [a.answered id?]) rest R' s'.rows := by
  cases h with
  | @exact done more htracks hn hocc hinserts =>
    cases hinserts with
    | @cons _ rest' o holder t j _ hot hj hparent hdeeper hrest =>
      have hoccurs {x : Occurrence} (hx : x ∈ done ++ o :: rest') : Occurs schema n u x :=
        mem_occurrences_iff.1 (hocc ▸ hx)
      obtain ⟨_, _, _, _, _, hkeyp, hvt, hins⟩ := htracks.inserted_of_runs hs hR hw hschema hr
        (fun x hx => hoccurs (List.mem_append_left _ hx)) (hoccurs (by simp)) hj hot hruns
      rcases htracks.step hs hR hn hocc hkeyp hvt hins hlen (List.mem_of_getElem? hj) hparent rfl hfills with
        ⟨htracks, hn⟩ | hlost
      · exact .exact htracks hn (by rw [hocc, List.append_assoc]; rfl) hrest
      · exact .lost (hrest.places_eq ▸ hlost)
  | lost hlost => exact .lost (lost_of_runs hlost hs ⟨hR, hc, ht⟩ hw htyped ha hruns hfills)

/-! ## The root -/

/-- No root of another type has the identifier. -/
def Lone (type : String) (id : Value) (rows : List Row) : Prop := ∀ r ∈ rows, r.isRoot = true → r.id = id → r.type = type

instance (id : Value) : Decidable (Lone type id rows) :=
  inferInstanceAs (Decidable (∀ r ∈ rows, r.isRoot = true → r.id = id → r.type = type))

theorem Lone.subset {rows' : List Row} {id : Value} (h : Lone type id rows) (hsub : rows' ⊆ rows) :
    Lone type id rows' := fun r hr => h r (hsub hr)

/-- A root with no row but its own. -/
theorem Sound.filter_eq_singleton {id : Value} (h : Sound schema rows) (hroot : HasRoot type id rows)
    (honly : ∀ r ∈ rows, r.rootId = id → isRootRow type id r = true) :
    ∃ row, (rows.filter fun r => r.rootId == id) = [row] ∧ row.key = (type, id) ∧ row.path = .root ∧
      row.parentId = none ∧ row.columns = [] := by
  have hkey : ∀ r ∈ rows.filter fun r => r.rootId == id, r.key = (type, id) := fun r hr => by
    rw [List.mem_filter, beq_iff_eq] at hr
    obtain ⟨ht, -, hid⟩ := isRootRow_iff.1 (honly r hr.1 hr.2)
    rw [Row.key, ht, hid]
  have hmap : (rows.filter fun r => r.rootId == id).map Row.key =
      List.replicate (rows.filter fun r => r.rootId == id).length (type, id) :=
    List.eq_replicate_iff.2 ⟨List.length_map _, List.forall_mem_map.2 hkey⟩
  have hle : (rows.filter fun r => r.rootId == id).length ≤ 1 := by
    rw [← List.nodup_replicate, ← hmap]
    exact h.nodup.sublist (List.filter_sublist.map _)
  obtain ⟨r, hr, hrow⟩ := hroot
  obtain ⟨-, hr', hid⟩ := isRootRow_iff.1 hrow
  obtain ⟨hrootId, hparent, hcolumns⟩ := h.root r hr hr'
  have hmem : r ∈ rows.filter fun r => r.rootId == id := List.mem_filter.2 ⟨hr, by simp [hrootId, hid]⟩
  obtain ⟨row, hrow⟩ := List.length_eq_one_iff.1 (Nat.le_antisymm hle (List.length_pos_of_mem hmem))
  rw [hrow] at hmem hkey
  cases List.mem_singleton.1 hmem
  exact ⟨r, hrow, hkey r (by simp), Path.isRoot_iff.1 hr', hparent, hcolumns⟩

section Begin

variable {root : Value} {set : ChangeSet} {ps : List DeclaredPath} {head : Action} {inserts : List Action}
  {id₀ id : Value} {rows' : List Row}

/-- After the root action of a plan the root has no row but its own. -/
theorem Parts.isRootRow_of_rootStep (h : Parts schema root set n R type id₀ ps head inserts)
    (hsound : Sound schema s.rows) (hlone : Lone type id s.rows) (hlen : (s.clear id₀ ps).rows.length < 2 ^ 64)
    (hstep : RootStep schema n type R id head id? (s.clear id₀ ps).rows rows') :
    ∀ r ∈ rows', r.rootId = id → isRootRow type id r = true := by
  have hcleared : Sound schema (s.clear id₀ ps).rows := hsound.clear (h.clears.closed List.prefix_rfl)
  have hlone' : Lone type id (s.clear id₀ ps).rows := hlone.subset fun r hr => (mem_clear.1 hr).1
  -- a row of the root comes with a root row of the root's type
  have howner {r : Row} (hr : r ∈ (s.clear id₀ ps).rows) (hid : r.rootId = id) (hroot : r.isRoot = false) :
      ∃ o ∈ (s.clear id₀ ps).rows, o.key = (type, id) ∧ schema.Declares type .root r.path r.type := by
    obtain ⟨o, ho, horoot, hoid, hdeclares⟩ := hcleared.owned r hr hroot
    have ht := hlone' o ho horoot (hoid.trans hid)
    exact ⟨o, ho, by rw [Row.key, ht, hoid, hid], ht ▸ hdeclares⟩
  cases hstep with
  | insert _ _ hfresh =>
    refine List.forall_mem_append.2 ⟨fun r hr hid => ?_, List.forall_mem_singleton.2 fun _ => ?_⟩
    · refine (hfresh hlen ?_).elim
      cases hroot : r.isRoot with
      | true =>
        have hrid := (hcleared.root r hr hroot).1.symm.trans hid
        exact List.mem_map.2 ⟨r, hr, by rw [Row.key, hlone' r hr hroot hrid, hrid]⟩
      | false =>
        obtain ⟨o, ho, hkey, -⟩ := howner hr hid hroot
        exact List.mem_map.2 ⟨o, ho, hkey⟩
    · exact isRootRow_iff.2 ⟨rfl, rfl, rfl⟩
  | update hkey _ =>
    intro r hr hid
    rcases mem_updateFirst hr with hmem | ⟨r', -, hchosen, rfl⟩
    · cases hroot : r.isRoot with
      | true =>
        have hrid := (hcleared.root r hmem hroot).1.symm.trans hid
        exact isRootRow_iff.2 ⟨hlone' r hmem hroot hrid, hroot, hrid⟩
      | false =>
        -- the deletes of the plan have cleared it
        obtain ⟨-, -, -, hdeclares⟩ := howner hmem hid hroot
        have hclears := h.clears
        cases hclears with
        | update hkey' _ hps _ =>
          rw [← h.key_eq, hkey] at hkey'
          cases hkey'
          exact ((mem_clear.1 hmem).2 ⟨hid, _, (hps ⟨r.path, r.type⟩).2 hdeclares, rfl, rfl⟩).elim
    · exact hchosen

/-- The rows of a root follow the inserts of its plan, once the root has its row and no other. -/
theorem Parts.following_of_filter (h : Parts schema root set n R type id₀ ps head inserts) (hs : schema.Separate)
    {row : Row} (hn : (rows'.map Row.key).Nodup) (hrow : (rows'.filter fun r => r.rootId == id) = [row])
    (hkey : row.key = (type, id)) (hpath : row.path = .root) (hparent : row.parentId = none) (hcolumns : row.columns = [])
    (hstep : RootStep schema n type R id head id? rows rows') (hR : BackFills schema (head.answered id?) R R')
    (hbase : executed.length = ps.length) :
    Following schema n (root.erase schema.isId) id ps.length (executed ++ [head.answered id?]) inserts R' rows' := by
  have hrooted : Rooted schema n type id ([] ++ [head.answered id?]) R' := hstep.rooted h.type_eq hR
  have hkeyAt : schema.keyAt R' (.root n) = some row.key := hrooted.key_eq.trans (congrArg some hkey.symm)
  have hid : row.id = id := congrArg Prod.snd hkey
  have hnode := h.clears.address?_answered id?
  have hu := hR.erase_eq_of_root hnode
  rcases h.inserts_or_lost with ⟨hRu, hinserts⟩ | hlost
  · have htracks : Tracks schema (root.erase schema.isId) id ps.length [⟨.root n, root.erase schema.isId⟩]
        (executed ++ [head.answered id?]) R' rows' := by
      refine ⟨hu.trans hRu, ?_, ?_, ?_, by simp [Address.parent?]⟩
      · rw [hrow]
        exact .cons ⟨hkeyAt, hid ▸ h.ne_null hstep, hpath, hparent, hcolumns⟩ .nil
      · rw [List.drop_append_of_le_length hbase.ge, List.drop_of_length_le hbase.le]
        refine .cons ⟨hnode, id, ?_, fun _ => hstep.eq_of_generatedId⟩ .nil
        rw [hkeyAt, Action.type_answered, h.clears.type_head, hkey]
      · rw [List.length_append, hbase]
        exact Nat.le_add_right ..
    have hocc : schema.occurrences n (root.erase schema.isId) = [⟨.root n, root.erase schema.isId⟩] ++
        (Occurrence.below schema ⟨.root n, root⟩).map (Occurrence.erase schema.isId) := by
      rw [occurrences_erase hs.spares, Schema.occurrences, Occurrence.all_eq]
      rfl
    exact .exact htracks hn hocc hinserts.erase
  · refine .lost (hu ▸ hlost.of_cons ?_)
    simp [Value.at?]

/-- The root action of a plan begins the rows that follow its inserts. -/
theorem Parts.following (h : Parts schema root set n R type id₀ ps head inserts) (hs : schema.Separate)
    (hsound : Sound schema s.rows) (hlone : Lone type id s.rows) (hlen : rows'.length < 2 ^ 64)
    (hstep : RootStep schema n type R id head id? (s.clear id₀ ps).rows rows')
    (hR : BackFills schema (head.answered id?) R R') (hbase : executed.length = ps.length) :
    Following schema n (root.erase schema.isId) id ps.length (executed ++ [head.answered id?]) inserts R' rows' := by
  obtain ⟨hsound', hroot⟩ := hstep.sound (hsound.clear (h.clears.closed List.prefix_rfl)) hlen
  obtain ⟨row, hrow, hkey, hpath, hparent, hcolumns⟩ := hsound'.filter_eq_singleton hroot
    (h.isRootRow_of_rootStep hsound hlone (hstep.length_le.trans_lt hlen) hstep)
  exact h.following_of_filter hs hsound'.nodup hrow hkey hpath hparent hcolumns hstep hR hbase

/-! ## Whole runs -/

/-- What holds along the inserts of a plan: the rows of the root follow the inserts, under a condition on its
identifier. -/
def FollowsIf (schema : Schema) (n : Nat) (type : String) (u : Value) (base : Nat) (condition : Value → Prop)
    (executed pending : List Action) (id R : Value) (rows : List Row) : Prop :=
  schema.Admits type R ∧
    (condition id → rows.length < 2 ^ 64 → Following schema n u id base executed pending R rows)

theorem Parts.begins (h : Parts schema root set n R type id₀ ps head inserts) (hs : schema.Separate)
    (hsound : Sound schema s.rows) :
    Begins schema n type R head inserts (ps.map fun p => .delete p.target id₀ p.path) (s.clear id₀ ps).rows
      (FollowsIf schema n type (root.erase schema.isId) ps.length fun id => Lone type id s.rows) (fun _ => True) :=
  fun _ _ _ hstep => ⟨trivial, fun _ hR => ⟨h.admits hs hR, fun hlone hlen =>
    h.following hs hsound hlone hlen hstep hR (List.length_map _)⟩⟩

theorem Parts.continues (h : Parts schema root set n R type id₀ ps head inserts) (hs : schema.Separate)
    (u : Value) (base : Nat) (condition : Value → Prop) :
    Continues schema n type inserts (FollowsIf schema n type u base condition) (fun _ => True) := by
  intro executed a rest id R' w s id? s' ⟨hadmits, hfollowing⟩ ha hrooted hw hschema hruns
  have havoids := h.avoids a ha
  obtain ⟨row, -, hrows, -⟩ := hrooted.adds_of_runs hw hschema havoids hruns
  refine ⟨trivial, fun R'' hR => ⟨hadmits.backFills hs (havoids.plain_answered id?) hR, fun hcondition hlen => ?_⟩⟩
  have hlt : s.rows.length < 2 ^ 64 := by
    rw [hrows, List.length_append] at hlen
    omega
  exact (hfollowing hcondition hlt).step hs hadmits.ordered hadmits.conforms hadmits.type_eq hw hrooted hschema
    (fun node hn => (h.typed a ha node hn).2) havoids hlt hruns hR

end Begin

/-- Where all inserts were carried out, no element was lost, and keys are unique. -/
theorem Following.finished {id : Value} (h : Following schema n u id base executed [] R rows) :
    R.erase schema.isId = u ∧ (rows.map Row.key).Nodup := by
  cases h with
  | exact htracks hn _ _ => exact ⟨htracks.erase_eq, hn⟩
  | lost hlost => exact (Value.not_lost_nil hlost).elim

/-- When all inserts are carried out, each occurrence of the aggregate has its row. -/
theorem Following.mirrors {id : Value} (h : Following schema n u id base executed [] R rows) (hs : schema.Separate)
    (hR : R.Ordered schema.isId) :
    List.Forall₂ (fun o row => o.node.current schema R = .ok o.value ∧ Mirrors schema R o.node row)
      (schema.occurrences n R) (rows.filter fun r => r.rootId == id) := by
  cases h with
  | exact htracks _ hocc hinserts =>
    cases hinserts
    obtain rfl := htracks.erase_eq
    rw [List.append_nil, occurrences_erase hs.spares] at hocc
    have hmirrors := htracks.mirrors
    rw [← hocc, List.forall₂_map_left_iff] at hmirrors
    exact forall₂_imp_of_mem hmirrors fun o ho row hrow => ⟨((mem_occurrences_iff.1 ho).reads hs.spares hR).1, hrow⟩
  | lost hlost => exact (Value.not_lost_nil hlost).elim

/-- Once the change set of an aggregate was carried out, the rows of its root are those of its entities: one for each,
in their order, with the entity's key, its path, the identifier of its holder and its index or map key. This takes that
no root of another type has the same identifier, and fewer rows than there are numbers for their identifiers. -/
theorem mirrors_of_execute {root : Value} {set : ChangeSet} (hs : schema.Separate) (hreachable : Reachable schema s)
    (hplans : Plans schema root set n R) (hw : w.Holds schema n R) (ho : other.getD schema = schema)
    (hlen : (ChangeSet.execute other executor set w s).state.rows.length < 2 ^ 64)
    (hok : (ChangeSet.execute other executor set w s).answer = .ok ()) :
    ∃ v type id, (ChangeSet.execute other executor set w s).set.entity = some v ∧ schema.key? v = some (type, id) ∧
      (Lone type id s.rows → List.Forall₂
        (fun o row => o.node.current schema v = .ok o.value ∧ Mirrors schema v o.node row) (schema.occurrences n v)
        ((ChangeSet.execute other executor set w s).state.rows.filter fun r => r.rootId == id)) := by
  obtain ⟨hschema, hsound⟩ := hreachable.sound hs
  obtain ⟨type, id₀, ps, head, inserts, h⟩ := hplans.parts hs
  obtain ⟨-, -, hdone⟩ := execute_storing ho hw h.type_eq hschema h.clears.head_eq h.avoids h.set_parts
    (h.begins hs hsound) (h.continues hs _ _ _) trivial
  obtain ⟨v, hv, executed, id, hkey, hadmits, hfollowing⟩ := hdone hok
  exact ⟨v, type, id, hv, hkey, fun hlone => (hfollowing hlone hlen).mirrors hs hadmits.ordered⟩

end Store

namespace Shop

/-- The first order, stored already, with other items and with a tag that has its identifier. -/
def reorder : Value :=
  .entity "Order" [
    ("id", .int 1),
    ("items", .list [.entity "Item" [("name", .text "ink")], .entity "Item" [("name", .text "ink")],
      .entity "Item" [("name", .text "pen")]]),
    ("tags", .set .linked [.entity "Tag" [("id", .text "new")]])]

/-- The workspace once the order was planned again, with what has changed. -/
def replanned : Workspace := (ChangeSet.planSave 1 planned reorder).2

end Shop

namespace Store

open ChangeSet (execute planSave)

/-- The order is stored again, with what has changed. -/
theorem mirrors_of_execute_reorder :
    ∃ set, planSave 1 Shop.planned Shop.reorder = (.ok set, Shop.replanned) ∧ Reachable Shop.entities Shop.stored ∧
      (execute none executor set Shop.replanned Shop.stored).answer = .ok () ∧
      ∃ v, (execute none executor set Shop.replanned Shop.stored).set.entity = some v ∧
        Shop.entities.key? v = some ("Order", .int 1) ∧ Lone "Order" (.int 1) Shop.stored.rows ∧
        List.Forall₂ (fun o row => o.node.current Shop.entities v = .ok o.value ∧ Mirrors Shop.entities v o.node row)
          (Shop.entities.occurrences 1 v)
          ((execute none executor set Shop.replanned Shop.stored).state.rows.filter fun r => r.rootId == .int 1) := by
  have hreorder : Shop.reorder.Canonical := by decide
  have hplans : Plans Shop.entities Shop.reorder (Shop.changes (planSave 1 Shop.planned Shop.reorder)) 1
      (Shop.replanned.root 1) :=
    ⟨hreorder, Schema.conforms_of_everywhere hreorder (by decide), 1, Shop.planned, Shop.replanned, rfl, .inr (.inr rfl),
      rfl, rfl⟩
  have ho : (none : Option Schema).getD Shop.entities = Shop.entities := rfl
  have hw : Shop.replanned.Holds Shop.entities 1 (Shop.replanned.root 1) := ⟨rfl, rfl⟩
  obtain ⟨v, type, id, hv, hkey, hmirrors⟩ := mirrors_of_execute (by decide) Shop.reachable_stored hplans hw ho
    (by decide +kernel) (by decide +kernel)
  have hentity := congrArg (·.bind Shop.entities.key?) hv
  have hid : some ("Order", .int 1) = some (type, id) := .trans (by decide +kernel) (hentity.trans hkey)
  cases hid
  have hlone : Lone "Order" (.int 1) Shop.stored.rows := by decide +kernel
  exact ⟨_, rfl, Shop.reachable_stored, by decide +kernel, v, hv, hkey, hlone, hmirrors hlone⟩

end Store

end Aggregate
