import Mathlib
import Aggregate.Proofs.Soundness

/-!
# Deleting what was stored

Between an insert of a root and its delete, all that storing does to a store concerns rows of that root, which come after
the rows that the store had before.

- `Store.Foreign`: rows of other roots; `Store.Extends`: these, in their order, and then rows of one root;
- `Store.Extends.rootStep`, `Store.Extends.grows`, `Store.Extends.clear`: what each step of storing the root keeps;
- `Store.Updates`: storing a root any number of times (`Store.Extends.updates`);
- `Store.execute_delete_of_insert`: deleting the root then gives the rows back.
-/

namespace Aggregate

open ChangeSet (execute planInsert planDelete planDelete_eq_ok)

variable {schema : Schema}

/-- A plan for inserting an aggregate deletes nothing and inserts the root. -/
theorem Store.Outline.of_planInsert {root R id : Value} {set : ChangeSet} {n limit : Nat} {type : String}
    {ps : List DeclaredPath} {head : Action} {inserts : List Action} {w₀ w₁ : Workspace}
    (h : Outline schema root set n R type id ps head inserts) (hplan : planInsert limit w₀ root = (.ok set, w₁)) :
    ps = [] ∧ head = .insertRoot type (.root n) none := by
  obtain ⟨acts, d, _, hruns, -, rfl, -⟩ := ChangeSet.runs_of_planWith hplan
  obtain ⟨_, _, -, rfl, -⟩ := Plan.runs_insert.1 hruns
  obtain ⟨-, hactions⟩ := h.set_parts
  cases h.clears with
  | insert => exact ⟨rfl, rfl⟩
  | update _ _ _ _ => cases ps <;> cases hactions

namespace Store

variable {type : String} {id : Value} {kept rows rows' : List Row} {n : Nat} {R : Value} {id? : Option Value}
  {head : Action} {inserts : List Action} {s s' : Store} {ps : List DeclaredPath}

/-! ## Rows of one root -/

/-- The row belongs to a root of this type, as the root's own or at a path declared below the type. -/
structure Belongs (schema : Schema) (type : String) (id : Value) (r : Row) : Prop where
  rootId_eq : r.rootId = id
  placed : r.isRoot = true ∧ r.type = type ∨ schema.Declares type .root r.path r.type

/-- No row is one of the root. -/
def Foreign (type : String) (id : Value) (rows : List Row) : Prop :=
  ∀ r ∈ rows, r.rootId ≠ id ∧ isRootRow type id r = false

/-- The rows are some rows, in their order, and after them rows that belong to one root. -/
def Extends (schema : Schema) (type : String) (id : Value) (kept rows : List Row) : Prop :=
  ∃ own, rows = kept ++ own ∧ ∀ r ∈ own, Belongs schema type id r

theorem updateFirst_append {chosen : Row → Bool} (change : Row → Row) (h : ∀ r ∈ kept, chosen r = false)
    (own : List Row) : updateFirst chosen change (kept ++ own) = kept ++ updateFirst chosen change own := by
  induction kept with
  | nil => rfl
  | cons r rest ih =>
    rw [List.forall_mem_cons] at h
    rw [List.cons_append, updateFirst, if_neg (by simp [h.1]), ih h.2, List.cons_append]

namespace Extends

theorem self (rows : List Row) : Extends schema type id rows rows := ⟨[], (List.append_nil _).symm, nofun⟩

theorem append {r : Row} (h : Extends schema type id kept rows) (hr : Belongs schema type id r) :
    Extends schema type id kept (rows ++ [r]) := by
  obtain ⟨own, rfl, hown⟩ := h
  exact ⟨own ++ [r], List.append_assoc .., List.forall_mem_append.2 ⟨hown, List.forall_mem_singleton.2 hr⟩⟩

/-- Deletes for the root concern its own rows. -/
theorem clear (hk : Foreign type id kept) (h : Extends schema type id kept s.rows) (ps : List DeclaredPath) :
    Extends schema type id kept (s.clear id ps).rows := by
  obtain ⟨own, hrows, hown⟩ := h
  refine ⟨(({ s with rows := own } : Store).clear id ps).rows, ?_, fun r hr => hown r (mem_clear.1 hr).1⟩
  have hkept : (({ s with rows := kept } : Store).clear id ps).rows = kept := by
    refine List.filter_eq_self.2 fun r hr => ?_
    rw [beq_false_of_ne (hk r hr).1]
    rfl
  calc (s.clear id ps).rows
      = (({ s with rows := kept } : Store).clear id ps).rows ++ (({ s with rows := own } : Store).clear id ps).rows := by
        rw [Store.clear, hrows, List.filter_append]
        rfl
    _ = kept ++ (({ s with rows := own } : Store).clear id ps).rows := by rw [hkept]

/-- The root action concerns the root's own rows. -/
theorem rootStep (hk : Foreign type id kept) (h : Extends schema type id kept rows)
    (hstep : RootStep schema n type R id head id? rows rows') : Extends schema type id kept rows' := by
  cases hstep with
  | insert _ _ _ => exact h.append ⟨rfl, .inl ⟨rfl, rfl⟩⟩
  | @update v _ _ _ =>
    obtain ⟨own, rfl, hown⟩ := h
    refine ⟨_, updateFirst_append _ (fun r hr => (hk r hr).2) own, fun r hr => ?_⟩
    rcases mem_updateFirst hr with hr | ⟨r', hr', -, rfl⟩
    · exact hown r hr
    · exact ⟨(hown r' hr').rootId_eq, (hown r' hr').placed⟩

/-- Inserts at declared paths concern the root's own rows. -/
theorem grows (hinserts : ∀ a ∈ inserts, ∀ node, a.address? = some node → schema.Declares type .root node.path a.type)
    (h : Extends schema type id kept rows) (hgrows : Grows inserts id rows rows') : Extends schema type id kept rows' := by
  induction hgrows with
  | refl => exact h
  | @step rows' a row _ ha hadds ih =>
    obtain ⟨node, hnode, hpath⟩ := hadds.path_eq
    refine ih.append ⟨hadds.rootId_eq, .inr ?_⟩
    rw [hpath, hadds.type_eq]
    exact hinserts a ha node hnode

/-- Deletes at all paths declared for the root, and of the root, leave the other rows. -/
theorem clear_all (hk : Foreign type id kept) (h : Extends schema type id kept s.rows)
    (hps : ∀ p, p ∈ ps ↔ schema.Declares type .root p.path p.target) :
    (s.clear id (ps ++ [⟨.root, type⟩])).rows = kept := by
  obtain ⟨own, hrows, hown⟩ := h.clear hk (ps ++ [⟨.root, type⟩])
  cases own with
  | nil => rw [hrows, List.append_nil]
  | cons r rest =>
    obtain ⟨hid, hplaced⟩ := hown r List.mem_cons_self
    have hmem : r ∈ (s.clear id (ps ++ [⟨.root, type⟩])).rows := by
      rw [hrows]
      simp
    refine absurd ⟨hid, ?_⟩ (mem_clear.1 hmem).2
    rcases hplaced with ⟨hroot, ht⟩ | hdeclares
    · exact ⟨⟨.root, type⟩, by simp, ht, Path.isRoot_iff.1 hroot⟩
    · exact ⟨⟨r.path, r.type⟩, List.mem_append_left _ ((hps _).2 hdeclares), rfl, rfl⟩

end Extends

/-! ## Storing a root again and again -/

/-- What storing aggregates with the same root does to a store, time and again, be each change set carried out, stopped by
a failure or cut off. -/
inductive Updates (schema : Schema) (type : String) (id : Value) (s : Store) : Store → Prop
  | none : Updates schema type id s s
  | store {s₁ s₂ : Store} {root : Value} : Updates schema type id s s₁ → root.Canonical → schema.Conforms root →
      schema.key? root = some (type, id) → Stores schema root s₁ s₂ → Updates schema type id s s₂

/-- The deletes of a plan for the root concern the root's own rows. -/
theorem Extends.cleared {root id₀ : Value} {set : ChangeSet} {qs : List DeclaredPath}
    (hparts : Outline schema root set n R type id₀ ps head inserts) (hkey : schema.key? root = some (type, id))
    (hk : Foreign type id kept) (h : Extends schema type id kept s.rows) (hqs : qs <+: ps) :
    Extends schema type id kept (s.clear id₀ qs).rows := by
  cases hparts.clears with
  | insert =>
    cases List.prefix_nil.1 hqs
    rwa [clear_nil]
  | update hkey' _ _ _ =>
    cases hkey.symm.trans hkey'
    exact h.clear hk qs

/-- Storing a root concerns its own rows only. -/
theorem Extends.updates (hs : schema.Separate) (hschema : s.schema = schema) (hid : id ≠ .null)
    (hk : Foreign type id kept) (h : Extends schema type id kept s.rows) (hu : Updates schema type id s s') :
    s'.schema = schema ∧ Extends schema type id kept s'.rows := by
  induction hu with
  | none => exact ⟨hschema, h⟩
  | store _ hcanonical hconforms hkey hstores ih =>
    obtain ⟨hschema, h⟩ := ih
    obtain ⟨k, hplanned, hw, ho⟩ := hstores
    obtain ⟨type', id₀, ps, head, inserts, hparts⟩ := Plans.parts hs ⟨hcanonical, hconforms, hplanned⟩
    obtain ⟨ht, -⟩ := Schema.key?_eq_some.1 hkey
    cases hparts.root_type_eq.symm.trans ht
    obtain ⟨hschema', hrows | ⟨-, id', id?, stored, hstep, hgrows⟩⟩ := hparts.rows_of_cut hw ho hschema k
    · exact ⟨hschema', hrows ▸ h.cleared hparts.toOutline hkey hk (List.take_prefix ..)⟩
    · cases hparts.id_eq hkey hid hstep
      have hcleared := h.cleared hparts.toOutline hkey hk List.prefix_rfl
      refine ⟨hschema', (hcleared.rootStep hk hstep).grows (fun a ha node hnode => ?_) hgrows⟩
      exact (hparts.typed a ha node hnode).2.declares (hparts.typed a ha node hnode).1

/-- An insert of a root that no row belongs to makes rows of that root, after those there were. -/
theorem Extends.of_insert {root v : Value} {set : ChangeSet} {limit : Nat} {w₀ w₁ w : Workspace} {other : Option Schema}
    (hs : schema.Separate) (hschema : s.schema = schema) (hlen : s.rows.length < 2 ^ 64) (hcanonical : root.Canonical)
    (hconforms : schema.Conforms root) (hw₀ : w₀.schema = schema) (hplan : planInsert limit w₀ root = (.ok set, w₁))
    (hw : w.Holds schema w₀.roots.length (w₁.root w₀.roots.length)) (ho : other.getD schema = schema)
    (hok : (execute other executor set w s).answer = .ok ())
    (hv : (execute other executor set w s).set.entity = some v) (hkey : schema.key? v = some (type, id))
    (hfree : ∀ r ∈ s.rows, r.rootId ≠ id) :
    (execute other executor set w s).state.schema = schema ∧ id ≠ .null ∧ Foreign type id s.rows ∧
      Extends schema type id s.rows (execute other executor set w s).state.rows := by
  obtain ⟨type', id₀, ps, head, inserts, h⟩ :=
    Plans.parts hs ⟨hcanonical, hconforms, limit, w₀, w₁, hw₀, .inl hplan, rfl, rfl⟩
  obtain ⟨rfl, rfl⟩ := h.of_planInsert hplan
  obtain ⟨hschema', -, hdone⟩ := execute_storing ho hw h.type_eq hschema h.clears.head_eq h.avoids h.set_parts
    (begins_saves (K := fun _ => True) fun _ _ => trivial) (continues_saves (fun _ _ => trivial) h.avoids) trivial
  obtain ⟨v', hv', -, id', hkey', id?, stored, hstep, hgrows⟩ := hdone hok
  cases hv'.symm.trans hv
  cases hkey'.symm.trans hkey
  rw [clear_nil] at hstep
  have hinserted := hstep
  cases hinserted with
  | insert _ hid hfresh =>
    have hk : Foreign type id s.rows := fun r hr => by
      refine ⟨hfree r hr, ?_⟩
      rw [Bool.eq_false_iff]
      intro hroot
      obtain ⟨ht, -, hrid⟩ := isRootRow_iff.1 hroot
      exact hfresh hlen (List.mem_map.2 ⟨r, hr, by rw [Row.key, ht, hrid]⟩)
    refine ⟨hschema', hid, hk, ((Extends.self s.rows).rootStep hk hstep).grows (fun a ha node hnode => ?_) hgrows⟩
    exact (h.typed a ha node hnode).2.declares (h.typed a ha node hnode).1

/-- Deleting a root undoes all that was done to store it: after an insert of an aggregate whose root has got an identifier
that no row in the store was inserted under, and after any number of change sets for conforming aggregates with that
root, a delete succeeds and leaves the rows that there were, in their order. This takes that the paths below the type of
the root can be listed, and fewer rows than there are numbers for their identifiers. -/
theorem execute_delete_of_insert {root v : Value} {set : ChangeSet} {limit deepest : Nat} {w₀ w₁ w w' : Workspace}
    {other other' : Option Schema} {declared : List DeclaredPath} (entity : Option Value) (hs : schema.Separate)
    (hschema : s.schema = schema) (hlen : s.rows.length < 2 ^ 64) (hdeclared : schema.declared deepest type = .ok declared)
    (hcanonical : root.Canonical) (hconforms : schema.Conforms root) (hw₀ : w₀.schema = schema)
    (hplan : planInsert limit w₀ root = (.ok set, w₁))
    (hw : w.Holds schema w₀.roots.length (w₁.root w₀.roots.length)) (ho : other.getD schema = schema)
    (hok : (execute other executor set w s).answer = .ok ())
    (hv : (execute other executor set w s).set.entity = some v) (hkey : schema.key? v = some (type, id))
    (hfree : ∀ r ∈ s.rows, r.rootId ≠ id)
    (hupdates : Updates schema type id (execute other executor set w s).state s') :
    ∃ delete, planDelete deepest schema type id entity = .ok delete ∧
      (execute other' executor delete w' s').answer = .ok () ∧
      (execute other' executor delete w' s').state.rows = s.rows := by
  obtain ⟨hschema', hid, hk, hextends⟩ := Extends.of_insert hs hschema hlen hcanonical hconforms hw₀ hplan hw ho hok hv
    hkey hfree
  obtain ⟨-, hextends'⟩ := hextends.updates hs hschema' hid hk hupdates
  obtain ⟨delete, hdelete, hactions⟩ : ∃ delete, planDelete deepest schema type id entity = .ok delete ∧ delete.actions =
      (declared.reverse ++ [(⟨.root, type⟩ : DeclaredPath)]).map fun p => .delete p.target id p.path :=
    ⟨_, planDelete_eq_ok.2 ⟨declared, hdeclared, rfl⟩, rfl⟩
  obtain ⟨hanswer, hstate⟩ := execute_deletes other' w' s' hactions
  refine ⟨delete, hdelete, hanswer, ?_⟩
  rw [hstate]
  exact hextends'.clear_all hk fun p => by rw [List.mem_reverse, Schema.mem_declared hdeclared]

end Store

namespace Shop

/-- The workspace once another order like the first one was planned. -/
def plannedTwice : Workspace := (planInsert 1 planned order).2

theorem plan_twice : planInsert 1 planned order = (.ok (changes (planInsert 1 planned order)), plannedTwice) := rfl

theorem holds_plannedTwice : plannedTwice.Holds entities 1 (plannedTwice.root 1) := ⟨rfl, rfl⟩

theorem declared_order : entities.declared 1 "Order" = .ok [⟨⟨["items"]⟩, "Item"⟩, ⟨⟨["tags"]⟩, "Tag"⟩] := rfl

/-- The other order gets the identifier 6. -/
theorem exists_key_twice : ∃ v, (execute none Store.executor (changes (planInsert 1 planned order)) plannedTwice
    stored).set.entity = some v ∧ entities.key? v = some ("Order", .int 6) :=
  Option.bind_eq_some_iff.1 (by decide +kernel)

/-- The other order, stored already, without its items and tags. -/
def emptied : Value := .entity "Order" [("id", .int 6)]

end Shop

namespace Store

/-- An order is stored beside another one, emptied and deleted. -/
theorem execute_delete_of_insert_order :
    ∃ set emptying s' delete, planInsert 1 Shop.planned Shop.order = (.ok set, Shop.plannedTwice) ∧
      (ChangeSet.planUpdate 1 Shop.plannedTwice Shop.emptied).1 = .ok emptying ∧ emptying.actions.length = 3 ∧
      (execute none executor set Shop.plannedTwice Shop.stored).answer = .ok () ∧
      (execute none executor set Shop.plannedTwice Shop.stored).state.rows.length = 10 ∧
      Updates Shop.entities "Order" (.int 6) (execute none executor set Shop.plannedTwice Shop.stored).state s' ∧
      s'.rows.length = 6 ∧ planDelete 1 Shop.entities "Order" (.int 6) none = .ok delete ∧
      (execute none executor delete Shop.planned s').answer = .ok () ∧
      (execute none executor delete Shop.planned s').state.rows = Shop.stored.rows := by
  have hs : Shop.entities.Separate := by decide
  have ho : (none : Option Schema).getD Shop.entities = Shop.entities := rfl
  have hemptied : Shop.emptied.Canonical := by decide
  have hplanned : Planned Shop.entities Shop.emptied (Shop.changes (ChangeSet.planUpdate 1 Shop.plannedTwice Shop.emptied))
      2 ((ChangeSet.planUpdate 1 Shop.plannedTwice Shop.emptied).2.root 2) :=
    ⟨1, Shop.plannedTwice, _, rfl, .inr (.inl rfl), rfl, rfl⟩
  have hupdates := Updates.store .none hemptied (Schema.conforms_of_everywhere hemptied (by decide)) rfl
    (.intro (w := (ChangeSet.planUpdate 1 Shop.plannedTwice Shop.emptied).2)
      (s := (execute none executor (Shop.changes (planInsert 1 Shop.planned Shop.order)) Shop.plannedTwice Shop.stored).state)
      3 hplanned ⟨rfl, rfl⟩ ho)
  obtain ⟨v, hv, hkey⟩ := Shop.exists_key_twice
  obtain ⟨delete, hdelete, hanswer, hrows⟩ := execute_delete_of_insert none hs rfl (by decide +kernel)
    Shop.declared_order (by decide) Shop.conforms_order rfl Shop.plan_twice Shop.holds_plannedTwice ho
    (by decide +kernel) hv hkey (by decide +kernel) hupdates
  exact ⟨_, _, _, delete, rfl, rfl, rfl, by decide +kernel, by decide +kernel, hupdates, by decide +kernel, hdelete,
    hanswer, hrows⟩

end Store

end Aggregate
