import Mathlib
import Aggregate.Proofs.Soundness

/-!
# Aggregates side by side

What storing or deleting one aggregate does to the rows of another.

- `Store.InsertedFor`, `Store.RowOf`: the rows of an aggregate are that of its root and those inserted below it;
- `Store.Handles`: storing or deleting the aggregate of a root;
- `Store.mem_of_handles`: the rows of other aggregates stay, but for rows of an aggregate whose root has the same
  identifier, in the tables and at the paths that are declared for both;
- `Store.not_isolated`: these do not always stay, nor do rows of roots whose identifier changes while they are stored.
-/

namespace Aggregate

open ChangeSet (execute planInsert planDelete)

variable {schema : Schema}

namespace Store

variable {type : String} {id : Value} {rows rows' : List Row} {r : Row} {n : Nat} {R root id₀ : Value}
  {id? : Option Value} {head : Action} {inserts : List Action} {s s' : Store} {ps : List DeclaredPath}

/-! ## Steps that keep rows -/

theorem mem_updateFirst_of_mem {chosen : Row → Bool} (change : Row → Row) (hr : r ∈ rows) (hkeep : chosen r = false) :
    r ∈ updateFirst chosen change rows := by
  induction rows with
  | nil => cases hr
  | cons x rest ih =>
    rw [updateFirst]
    split
    · rename_i hx
      rcases List.mem_cons.1 hr with rfl | hr
      · rw [hkeep] at hx
        cases hx
      · exact List.mem_cons_of_mem _ hr
    · exact List.mem_cons.2 ((List.mem_cons.1 hr).imp_right ih)

theorem Grows.mem (h : Grows inserts id rows rows') (hr : r ∈ rows) : r ∈ rows' := by
  induction h with
  | refl => exact hr
  | step _ _ _ ih => exact List.mem_append_left _ ih

/-- Inserts below a root add no root rows. -/
theorem Grows.mem_of_isRoot (h : Grows inserts id rows rows') (hinserts : ∀ a ∈ inserts, a.Avoids schema n type)
    (hr : r ∈ rows') (hroot : r.isRoot = true) : r ∈ rows := by
  induction h with
  | refl => exact hr
  | step _ ha hadds ih =>
    rcases List.mem_append.1 hr with hr | hr
    · exact ih hr
    · cases List.mem_singleton.1 hr
      rw [hadds.isRoot_eq (hinserts _ ha)] at hroot
      cases hroot

/-! ## The rows of an aggregate -/

/-- The rows after some actions of a change set. -/
def rowsAfter (other : Option Schema) (set : ChangeSet) (w : Workspace) (s : Store) (k : Nat) : List Row :=
  (execute other executor { set with actions := set.actions.take k } w s).state.rows

/-- The root has this type and this identifier, or gets the identifier: there is a root row then that was not there. -/
def Identified (schema : Schema) (root : Value) (type : String) (id : Value) (rows rows' : List Row) : Prop :=
  schema.key? root = some (type, id) ∧ id ≠ .null ∨
    schema.key? root = some (type, .null) ∧ ∃ o ∈ rows', o ∉ rows ∧ isRootRow type id o = true

/-- An action of a change set that stores an aggregate with this root has inserted the row. -/
inductive InsertedFor (schema : Schema) (type : String) (id : Value) (r : Row) : Prop
  | intro {root R : Value} {set : ChangeSet} {n : Nat} {w : Workspace} {other : Option Schema} {s : Store} (k : Nat) :
    Planned schema root set n R → w.Holds schema n R → other.getD schema = schema → s.schema = schema →
      Identified schema root type id s.rows (rowsAfter other set w s (k + 1)) →
      rowsAfter other set w s (k + 1) = rowsAfter other set w s k ++ [r] → InsertedFor schema type id r

/-- The row is that of the root, or was inserted for it. -/
def RowOf (schema : Schema) (type : String) (id : Value) (r : Row) : Prop :=
  isRootRow type id r = true ∨ InsertedFor schema type id r

/-- The actions of a plan insert rows under the identifier of the root. -/
theorem Outline.id_eq_of_identified {set : ChangeSet} {id' : Value} {cleared stored : List Row}
    (h : Outline schema root set n R type id₀ ps head inserts) (hsub : cleared ⊆ rows)
    (hstep : RootStep schema n type R id' head id? cleared stored) (hgrows : Grows inserts id' stored rows')
    (hid : Identified schema root type id rows rows') : id' = id := by
  rcases hid with ⟨hkey, hnull⟩ | ⟨hkey, o, ho, hnew, horow⟩
  · exact h.id_eq hkey hnull hstep
  · obtain ⟨-, horoot, rfl⟩ := isRootRow_iff.1 horow
    have hstored := hgrows.mem_of_isRoot h.avoids ho horoot
    cases hstep with
    | insert _ _ _ =>
      rcases List.mem_append.1 hstored with hold | hold
      · exact (hnew (hsub hold)).elim
      · cases List.mem_singleton.1 hold
        rfl
    | update _ _ =>
      -- a root without identifier is not updated
      have hclears := h.clears
      cases hclears with
      | update hkey' hnull _ _ =>
        cases hkey.symm.trans hkey'
        exact (hnull rfl).elim

theorem clear_sublist (id : Value) (ps : List DeclaredPath) (s : Store) : (s.clear id ps).rows.Sublist s.rows :=
  List.filter_sublist

theorem length_clear_le (id : Value) {ps qs : List DeclaredPath} (hq : qs <+: ps) (s : Store) :
    (s.clear id ps).rows.length ≤ (s.clear id qs).rows.length := by
  obtain ⟨rest, rfl⟩ := hq
  rw [← clear_clear]
  exact (clear_sublist id rest _).length_le

/-- Before the root action of a plan and after it there are as many rows as there are without those it deletes, or
more. -/
theorem Outline.length_clear_le {set : ChangeSet} {w : Workspace} {other : Option Schema}
    (h : Outline schema root set n R type id ps head inserts) (hw : w.Holds schema n R) (ho : other.getD schema = schema)
    (hs : s.schema = schema) (k : Nat) :
    (s.clear id ps).rows.length ≤ (rowsAfter other set w s k).length := by
  obtain ⟨-, hrows | ⟨-, _, _, _, hstep, hgrows⟩⟩ := h.rows_of_cut hw ho hs k
  · rw [rowsAfter, hrows]
    exact Store.length_clear_le id (List.take_prefix ..) s
  · exact hstep.length_le.trans hgrows.length_le

/-- A row inserted for a root is its row, or a row below it with its identifier. -/
theorem InsertedFor.cases (hs : schema.Separate) (h : InsertedFor schema type id r) :
    isRootRow type id r = true ∨ r.isRoot = false ∧ r.rootId = id := by
  obtain @⟨root, R, set, n, w, other, s, k, hplanned, hw, ho, hschema, hid, hrows⟩ := h
  obtain ⟨_, _, type', id₀, ps, head, inserts, _, h, -⟩ := hplanned.outline hs
  have ht : type' = type := by
    rcases hid with ⟨hkey, -⟩ | ⟨hkey, -⟩ <;>
      exact Option.some.inj (h.root_type_eq.symm.trans (Schema.key?_eq_some.1 hkey).1)
  subst ht
  have hlen : (rowsAfter other set w s (k + 1)).length = (rowsAfter other set w s k).length + 1 := by
    rw [hrows, List.length_append, List.length_singleton]
  have hlast : (rowsAfter other set w s (k + 1)).getLast? = some r := by
    rw [hrows, List.getLast?_append, List.getLast?_singleton]
    rfl
  have hbefore := h.length_clear_le hw ho hschema k
  obtain ⟨-, hcut⟩ := h.rows_of_cut hw ho hschema (k + 1)
  change rowsAfter other set w s (k + 1) = _ ∨ _ ∧ Saves _ _ _ _ _ _ _ (rowsAfter other set w s (k + 1)) at hcut
  generalize rowsAfter other set w s (k + 1) = after at *
  rcases hcut with hclear | ⟨-, id', id?, stored, hstep, hgrows⟩
  · -- deletes add no row
    rcases Nat.lt_or_ge ps.length (k + 1) with hk | hk
    · rw [List.take_of_length_le hk.le] at hclear
      rw [hclear] at hlen
      omega
    · have hle := Store.length_clear_le id₀ (List.take_prefix_take_left (l := ps) (Nat.le_succ k)) s
      rw [← hclear, ← h.execute_clears other w s (Nat.le_of_succ_le hk)] at hle
      change after.length ≤ (rowsAfter other set w s k).length at hle
      omega
  · have hid' := h.id_eq_of_identified (clear_sublist id₀ ps s).subset hstep hgrows hid
    subst hid'
    cases hgrows with
    | refl =>
      cases hstep with
      | insert _ _ _ =>
        rw [List.getLast?_append, List.getLast?_singleton] at hlast
        cases hlast
        exact .inl (isRootRow_iff.2 ⟨rfl, rfl, rfl⟩)
      | @update v _ _ _ =>
        -- an update adds no row
        have hupdate := congrArg List.length (map_bare_updateFirst (isRootRow type' id') v (s.clear id₀ ps).rows)
        rw [List.length_map, List.length_map] at hupdate
        omega
    | @step _ a row _ ha hadds =>
      rw [List.getLast?_append, List.getLast?_singleton] at hlast
      cases hlast
      exact .inr ⟨hadds.isRoot_eq (h.avoids a ha), hadds.rootId_eq⟩

/-! ## Stores -/

/-- The stores that come about by executing change sets, each carried out, stopped by a failure or cut off, for any
aggregates. -/
inductive Arises (schema : Schema) : Store → Prop
  | empty : Arises schema (.empty schema)
  | store {s s' : Store} {root : Value} : Arises schema s → Stores schema root s s' → Arises schema s'
  | delete {s s' : Store} {type : String} {id : Value} : Arises schema s → Deletes schema type id s s' → Arises schema s'

/-- Root rows are kept under their own identifiers. -/
def OwnRoots (rows : List Row) : Prop := ∀ r ∈ rows, r.isRoot = true → r.rootId = r.id

theorem OwnRoots.rootStep (h : OwnRoots rows) (hstep : RootStep schema n type R id head id? rows rows') :
    OwnRoots rows' := by
  cases hstep with
  | insert _ _ _ => exact List.forall_mem_append.2 ⟨h, List.forall_mem_singleton.2 fun _ => rfl⟩
  | update _ _ =>
    intro r hr hroot
    rcases mem_updateFirst hr with hr | ⟨r', hr', -, rfl⟩
    · exact h r hr hroot
    · exact h r' hr' hroot

theorem OwnRoots.grows (h : OwnRoots rows) (hgrows : Grows inserts id rows rows')
    (hinserts : ∀ a ∈ inserts, a.Avoids schema n type) : OwnRoots rows' := fun r hr hroot =>
  h r (hgrows.mem_of_isRoot hinserts hr hroot) hroot

theorem OwnRoots.clear (h : OwnRoots s.rows) (id : Value) (ps : List DeclaredPath) : OwnRoots (s.clear id ps).rows :=
  fun r hr => h r ((clear_sublist id ps s).subset hr)

theorem Arises.ownRoots (hs : schema.Separate) (h : Arises schema s) : s.schema = schema ∧ OwnRoots s.rows := by
  induction h with
  | empty => exact ⟨rfl, nofun⟩
  | store _ hstores ih =>
    obtain ⟨hschema, hown⟩ := ih
    obtain ⟨k, hplanned, hw, ho⟩ := hstores
    obtain ⟨_, _, type, id₀, ps, head, inserts, _, h, -⟩ := hplanned.outline hs
    obtain ⟨hschema', hrows | ⟨-, id, id?, stored, hstep, hgrows⟩⟩ := h.rows_of_cut hw ho hschema k
    · rw [hrows]
      exact ⟨hschema', hown.clear id₀ _⟩
    · exact ⟨hschema', ((hown.clear id₀ ps).rootStep hstep).grows hgrows h.avoids⟩
  | delete _ hdeletes ih =>
    obtain ⟨hschema, hown⟩ := ih
    obtain ⟨qs, -, -, rfl⟩ := hdeletes.clear
    exact ⟨hschema, hown.clear _ qs⟩

/-! ## Isolation -/

/-- A store between two actions of a change set that stores or deletes the aggregate of a root, or after it. -/
inductive Handles (schema : Schema) (type : String) (id : Value) (s s' : Store) : Prop
  | store {root : Value} : schema.key? root = some (type, id) → Stores schema root s s' → Handles schema type id s s'
  | delete : Deletes schema type id s s' → Handles schema type id s s'

section Isolation

variable {type₁ type₂ : String} {id₁ id₂ : Value}

/-- Deletes for one root do not concern the rows of another one, but at paths declared for both. -/
theorem mem_clear_of_rowOf (hs : schema.Separate) (hown : OwnRoots s.rows) (hr : r ∈ s.rows)
    (hrow : RowOf schema type₂ id₂ r) (hne : (type₁, id₁) ≠ (type₂, id₂))
    (hapart : id₁ = id₂ → ¬ schema.Declares type₁ .root r.path r.type) {qs : List DeclaredPath}
    (hqs : ∀ p ∈ qs, p = ⟨.root, type₁⟩ ∨ schema.Declares type₁ .root p.path p.target) : r ∈ (s.clear id₁ qs).rows := by
  refine mem_clear.2 ⟨hr, ?_⟩
  rintro ⟨hid, p, hp, htype, hpath⟩
  have hcases : isRootRow type₂ id₂ r = true ∨ r.isRoot = false ∧ r.rootId = id₂ :=
    hrow.elim .inl fun h => h.cases hs
  rcases hcases with hroot | ⟨hroot, hid₂⟩
  · obtain ⟨ht, hroot, hrid⟩ := isRootRow_iff.1 hroot
    have hids : id₁ = id₂ := by rw [← hid, hown r hr hroot, hrid]
    rcases hqs p hp with rfl | hdeclares
    · exact hne (by rw [← ht, htype, hids])
    · rw [← hpath] at hdeclares
      exact absurd hroot (by rw [Row.isRoot, hdeclares.isRoot_eq]; decide)
  · rcases hqs p hp with rfl | hdeclares
    · rw [Row.isRoot, hpath] at hroot
      cases hroot
    · exact hapart (hid.symm.trans hid₂) (by rwa [hpath, htype])

/-- Storing or deleting one aggregate leaves the rows of another one, whose root has another type or another identifier,
as they are. If the roots have the same identifier, this takes that a row below the second root does not lie in a table
and at a path that are declared below the type of the first. -/
theorem mem_of_handles (hs : schema.Separate) (harises : Arises schema s) (hhandles : Handles schema type₁ id₁ s s')
    (hr : r ∈ s.rows) (hrow : RowOf schema type₂ id₂ r) (hne : (type₁, id₁) ≠ (type₂, id₂))
    (hapart : id₁ = id₂ → ¬ schema.Declares type₁ .root r.path r.type) : r ∈ s'.rows := by
  obtain ⟨hschema, hown⟩ := harises.ownRoots hs
  cases hhandles with
  | delete hdeletes =>
    obtain ⟨qs, -, hqs, rfl⟩ := hdeletes.clear
    exact mem_clear_of_rowOf hs hown hr hrow hne hapart hqs
  | @store root hkey hstores =>
    obtain ⟨k, hplanned, hw, ho⟩ := hstores
    obtain ⟨_, _, type, id₀, ps, head, inserts, _, h, -⟩ := hplanned.outline hs
    cases h.root_type_eq.symm.trans (Schema.key?_eq_some.1 hkey).1
    -- the plan deletes rows of the first root only
    have hkept {qs : List DeclaredPath} (hqs : qs <+: ps) : r ∈ (s.clear id₀ qs).rows := by
      have hclears := h.clears
      cases hclears with
      | insert =>
        cases List.prefix_nil.1 hqs
        rwa [clear_nil]
      | update hkey' _ hps _ =>
        cases hkey.symm.trans hkey'
        exact mem_clear_of_rowOf hs hown hr hrow hne hapart fun p hp => .inr ((hps p).1 (hqs.subset hp))
    obtain ⟨-, hrows | ⟨-, id, id?, stored, hstep, hgrows⟩⟩ := h.rows_of_cut hw ho hschema k
    · rw [hrows]
      exact hkept (List.take_prefix ..)
    · refine hgrows.mem ?_
      have hmem := hkept List.prefix_rfl
      cases hstep with
      | insert _ _ _ => exact List.mem_append_left _ hmem
      | update hkeyR _ =>
        -- the row updated is that of the first root
        cases (h.key_eq.trans hkey).symm.trans hkeyR
        refine mem_updateFirst_of_mem _ hmem ?_
        rw [Bool.eq_false_iff]
        intro hfirst
        obtain ⟨ht₁, hroot₁, hid₁⟩ := isRootRow_iff.1 hfirst
        rcases hrow.elim .inl fun h => h.cases hs with hroot | ⟨hroot, -⟩
        · obtain ⟨ht₂, -, hid₂⟩ := isRootRow_iff.1 hroot
          exact hne (by rw [← ht₁, ← ht₂, ← hid₁, ← hid₂])
        · rw [hroot₁] at hroot
          cases hroot

end Isolation

end Store

/-! ## A market -/

namespace Market

/-- Orders with items and notes, and offers with items. -/
def entities : Schema where
  types := [
    ⟨"Order", some "id", [⟨"items", some "Item", .list, none, false⟩, ⟨"notes", some "Note", .set, none, false⟩]⟩,
    ⟨"Offer", some "id", [⟨"items", some "Item", .list, none, false⟩]⟩,
    ⟨"Item", some "id", []⟩,
    ⟨"Note", some "id", []⟩]
  sound := by decide
  distinct := by decide

/-- An order that was never stored. -/
def order : Value :=
  .entity "Order" [("items", .list [.entity "Item" []]), ("notes", .set .linked [.entity "Note" []])]

/-- An offer with an identifier of its own. -/
def offer : Value := .entity "Offer" [("id", .int 1)]

/-- The workspace once the order was planned. -/
def ordered : Workspace := (planInsert 1 (.empty entities) order).2

/-- The workspace once the offer was planned as well. -/
def offered : Workspace := (planInsert 1 ordered offer).2

def ordering : ChangeSet := Shop.changes (planInsert 1 (.empty entities) order)

def offering : ChangeSet := Shop.changes (planInsert 1 ordered offer)

/-- The change set that deletes the offer. -/
def withdrawal : ChangeSet :=
  ⟨.delete, "Offer", none, [.delete "Item" (.int 1) ⟨["items"]⟩, .delete "Offer" (.int 1) .root]⟩

/-- A store with the order and the offer, which have the same identifier. -/
def stored : Store :=
  (execute none Store.executor offering offered
    (execute none Store.executor ordering ordered (.empty entities)).state).state

/-- The store once the offer is deleted. -/
def withdrawn : Store := (execute none Store.executor withdrawal offered stored).state

/-- The row of the order's item. -/
def item : Row :=
  ⟨"Item", .int 2, .int 1, ⟨["items"]⟩, some (.int 1), [("order_key", .int 0)], .entity "Item" [("id", .int 2)]⟩

/-- The row of the order's note. -/
def note : Row := ⟨"Note", .int 3, .int 1, ⟨["notes"]⟩, some (.int 1), [], .entity "Note" [("id", .int 3)]⟩

theorem planned_order : Store.Planned entities order ordering 0 (ordered.root 0) :=
  ⟨1, .empty entities, ordered, rfl, .inl rfl, rfl, rfl⟩

theorem planned_offer : Store.Planned entities offer offering 1 (offered.root 1) :=
  ⟨1, ordered, offered, rfl, .inl rfl, rfl, rfl⟩

theorem arises_stored : Store.Arises entities stored := by
  have ho : (none : Option Schema).getD entities = entities := rfl
  exact .store (.store .empty (.intro 3 planned_order ⟨rfl, rfl⟩ ho)) (.intro 1 planned_offer ⟨rfl, rfl⟩ ho)

theorem handles_offer : Store.Handles entities "Offer" (.int 1) stored withdrawn := by
  have hplan : planDelete 1 entities "Offer" (.int 1) none = .ok withdrawal := rfl
  exact .delete (@Store.Deletes.intro entities "Offer" (.int 1) stored 1 none withdrawal offered none 2 hplan)

/-- The second action of the order's plan inserts the item, the third one the note. -/
theorem inserted_order :
    Store.InsertedFor entities "Order" (.int 1) item ∧ Store.InsertedFor entities "Order" (.int 1) note := by
  have ho : (none : Option Schema).getD entities = entities := rfl
  have hw : ordered.Holds entities 0 (ordered.root 0) := ⟨rfl, rfl⟩
  have hs : (Store.empty entities).schema = entities := rfl
  have hkey : entities.key? order = some ("Order", .null) := rfl
  refine ⟨.intro 1 planned_order hw ho hs (.inr ⟨hkey, ?_⟩) ?_, .intro 2 planned_order hw ho hs (.inr ⟨hkey, ?_⟩) ?_⟩
  all_goals decide +kernel

end Market

namespace Store

/-- The note of the order stays when the offer with the same identifier is deleted. -/
theorem mem_of_handles_note :
    Market.entities.Separate ∧ Arises Market.entities Market.stored ∧
      Handles Market.entities "Offer" (.int 1) Market.stored Market.withdrawn ∧ Market.note ∈ Market.stored.rows ∧
      RowOf Market.entities "Order" (.int 1) Market.note ∧ ("Offer", Value.int 1) ≠ ("Order", .int 1) ∧
      ¬ Market.entities.Declares "Offer" .root Market.note.path Market.note.type ∧
      Market.note ∈ Market.withdrawn.rows := by
  have hs : Market.entities.Separate := by decide
  have hmem : Market.note ∈ Market.stored.rows := by decide +kernel
  have hrow : RowOf Market.entities "Order" (.int 1) Market.note := .inr Market.inserted_order.2
  have hne : ("Offer", Value.int 1) ≠ ("Order", .int 1) := by decide
  have hdeclared : Market.entities.declared 1 "Offer" = .ok [⟨⟨["items"]⟩, "Item"⟩] := rfl
  have hapart : ¬ Market.entities.Declares "Offer" .root Market.note.path Market.note.type := by
    intro h
    have hpath := (Schema.mem_declared hdeclared ⟨Market.note.path, Market.note.type⟩).2 h
    revert hpath
    decide
  exact ⟨hs, Market.arises_stored, Market.handles_offer, hmem, hrow, hne, hapart,
    mem_of_handles hs Market.arises_stored Market.handles_offer hmem hrow hne fun _ => hapart⟩

end Store

/-! ## Cargo, identified by what it holds -/

namespace Cargo

/-- Crates and pallets, whose identifier is the box they hold. -/
def entities : Schema where
  types := [
    ⟨"Crate", some "box", [⟨"box", some "Box", .single, none, false⟩]⟩,
    ⟨"Pallet", some "box", [⟨"box", some "Box", .single, none, false⟩]⟩,
    ⟨"Box", some "number", [⟨"label", some "Label", .single, none, false⟩]⟩,
    ⟨"Label", some "number", []⟩]
  sound := by decide
  distinct := by decide

/-- A box without a number, and the same box with one. -/
def blank : Value := .entity "Box" [("label", .entity "Label" [])]

def numbered : Value := .entity "Box" [("label", .entity "Label" []), ("number", .int 1)]

def crate : Value := .entity "Crate" [("box", blank)]

def pallet : Value := .entity "Pallet" [("box", numbered)]

/-- The workspace once the crate was planned. -/
def crated : Workspace := (planInsert 2 (.empty entities) crate).2

/-- The workspace once the pallet was planned as well. -/
def palleted : Workspace := (planInsert 2 crated pallet).2

def crating : ChangeSet := Shop.changes (planInsert 2 (.empty entities) crate)

def palleting : ChangeSet := Shop.changes (planInsert 2 crated pallet)

/-- The change set that deletes the pallet. -/
def removal : ChangeSet :=
  ⟨.delete, "Pallet", none,
    [.delete "Label" numbered ⟨["box", "label"]⟩, .delete "Box" numbered ⟨["box"]⟩, .delete "Pallet" numbered .root]⟩

/-- A store with the crate and with a pallet whose box was refused. The identifier of the crate has changed while it was
stored: its box has got a number. -/
def stored : Store :=
  (execute none Store.executor palleting palleted
    (execute none Store.executor crating crated (.empty entities)).state).state

/-- The store once the pallet is deleted. -/
def removed : Store := (execute none Store.executor removal palleted stored).state

/-- The row of the label in the crate. -/
def label : Row :=
  ⟨"Label", .int 2, numbered, ⟨["box", "label"]⟩, some (.int 1), [], .entity "Label" [("number", .int 2)]⟩

theorem planned_crate : Store.Planned entities crate crating 0 (crated.root 0) :=
  ⟨2, .empty entities, crated, rfl, .inl rfl, rfl, rfl⟩

theorem planned_pallet : Store.Planned entities pallet palleting 1 (palleted.root 1) :=
  ⟨2, crated, palleted, rfl, .inl rfl, rfl, rfl⟩

theorem arises_stored : Store.Arises entities stored := by
  have ho : (none : Option Schema).getD entities = entities := rfl
  exact .store (.store .empty (.intro 3 planned_crate ⟨rfl, rfl⟩ ho)) (.intro 3 planned_pallet ⟨rfl, rfl⟩ ho)

theorem handles_pallet : Store.Handles entities "Pallet" numbered stored removed := by
  have hplan : planDelete 2 entities "Pallet" numbered none = .ok removal := rfl
  exact .delete (@Store.Deletes.intro entities "Pallet" numbered stored 2 none removal palleted none 3 hplan)

/-- The third action of the crate's plan inserts the label. -/
theorem inserted_crate : Store.InsertedFor entities "Crate" blank label := by
  have ho : (none : Option Schema).getD entities = entities := rfl
  have hw : crated.Holds entities 0 (crated.root 0) := ⟨rfl, rfl⟩
  have hs : (Store.empty entities).schema = entities := rfl
  have hkey : entities.key? crate = some ("Crate", blank) := rfl
  exact .intro 2 planned_crate hw ho hs (.inl ⟨hkey, by decide⟩) (by decide +kernel)

end Cargo

namespace Store

/-- Of two roots in a store, storing or deleting the first takes away a row of the second. -/
structure Takes (schema : Schema) (s s' : Store) (type₁ type₂ : String) (id₁ id₂ : Value) (r : Row) : Prop where
  arises : Arises schema s
  first : HasRoot type₁ id₁ s.rows
  second : HasRoot type₂ id₂ s.rows
  ne : (type₁, id₁) ≠ (type₂, id₂)
  handles : Handles schema type₁ id₁ s s'
  row : RowOf schema type₂ id₂ r
  mem : r ∈ s.rows
  gone : r ∉ s'.rows

/-- Rows of other aggregates do not always stay. Deleting an offer deletes the item of an order with the same identifier.
Where roots are identified by what they hold, deleting a pallet deletes a label in a crate with another identifier. -/
theorem not_isolated :
    (Market.entities.Separate ∧
      Takes Market.entities Market.stored Market.withdrawn "Offer" "Order" (.int 1) (.int 1) Market.item) ∧
    (Cargo.numbered ≠ Cargo.blank ∧
      Takes Cargo.entities Cargo.stored Cargo.removed "Pallet" "Crate" Cargo.numbered Cargo.blank Cargo.label) := by
  refine ⟨⟨by decide, ?_⟩, by decide, ?_⟩
  · exact ⟨Market.arises_stored, by decide +kernel, by decide +kernel, by decide, Market.handles_offer,
      .inr Market.inserted_order.1, by decide +kernel, by decide +kernel⟩
  · exact ⟨Cargo.arises_stored, by decide +kernel, by decide +kernel, by decide, Cargo.handles_pallet,
      .inr Cargo.inserted_crate, by decide +kernel, by decide +kernel⟩

end Store

end Aggregate
