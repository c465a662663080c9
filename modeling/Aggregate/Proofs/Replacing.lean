import Mathlib
import Aggregate.Proofs.Locality

/-!
# When assigning fails

A value is assigned where one can be read, and where none can assigning fails as reading does and changes nothing; but
a key that a map does not have can be assigned, though nothing is read there.

- `Strategy.rebuild_of_extract_error`: one container;
- `Address.Vacant`: the addresses of keys that a map does not have;
- `Workspace.assign_exact`, and `Workspace.not_assign_iff_current`: such a key is added to the map.
-/

namespace Aggregate

variable {schema : Schema}

/-- A container out of which nothing is taken cannot be rebuilt either, for the same reason, unless it is a map without
the key. -/
theorem Strategy.rebuild_of_extract_error {s : Strategy} {c x : Value} {cause : StrategyError} (hs : s.Plain)
    (h : s.extract (some c) = .error cause) :
    s.rebuild c x = .error cause ∨ ∃ key entries, s = mapKey key ∧ c = .map entries ∧ entries.lookup key = none := by
  cases s with
  | known _ => exact hs.elim
  | direct => cases h
  | mapKey key =>
    cases c with
    | map entries =>
      cases hkey : entries.lookup key with
      | some v => simp [extract, hkey, found] at h
      | none => exact .inr ⟨key, entries, rfl, rfl, hkey⟩
    | _ =>
      cases h
      exact .inl rfl
  | listIndex index =>
    left
    cases c with
    | list items =>
      cases hindex : items[index]? with
      | some v => simp [extract, hindex, found] at h
      | none =>
        simp only [extract, hindex, found] at h
        cases h
        exact if_neg (List.getElem?_eq_none_iff.1 hindex).not_gt
    | _ =>
      cases h
      rfl
  | setPosition position =>
    left
    cases c with
    | set ordering elements =>
      cases hposition : elements[position]? with
      | some v => simp [extract, hposition, found] at h
      | none =>
        simp only [extract, hposition, found] at h
        cases h
        exact if_neg (List.getElem?_eq_none_iff.1 hposition).not_gt
    | _ =>
      cases h
      rfl

namespace Address

variable {R v x : Value} {node : Address} {e : ResolutionError}

/-- The address of a key that a map does not have. -/
def Vacant (schema : Schema) (R : Value) (node : Address) : Prop :=
  ∃ parent relation key holder entries, node = child parent relation (.mapKey key) ∧
    parent.current schema R = .ok holder ∧ schema.read holder relation.property.name = .ok (.map entries) ∧
    entries.lookup key = none

/-- A key that a map does not have can be assigned. -/
theorem assign_of_vacant (hn : node.Plain) (h : node.Vacant schema R) (x : Value) :
    ∃ R', node.assign schema R x = .ok R' := by
  obtain ⟨parent, relation, key, holder, entries, rfl, hholder, hread, -⟩ := h
  exact ⟨_, assign_child.2 ⟨holder, _, _, hholder, hread, rfl, assign_of_current hn.1 hholder _⟩⟩

/-- Nothing is read at a key that a map does not have. -/
theorem current_of_vacant (h : node.Vacant schema R) : ∃ e, node.current schema R = .error e := by
  obtain ⟨parent, relation, key, holder, entries, rfl, hholder, hread, hkey⟩ := h
  refine ⟨.unresolved (child parent relation (.mapKey key)) (.missing (.mapKey key)), ?_⟩
  have hs : (Strategy.mapKey key).Plain := trivial
  rw [current_child_eq hs, hholder]
  simp only [readRelation, hread, Strategy.extract, hkey, Strategy.found, bind, Except.bind, Except.mapError]

/-- At all other addresses assigning fails as reading does. -/
theorem assign_of_current_error (hn : node.Plain) (h : node.current schema R = .error e)
    (hvacant : ¬ node.Vacant schema R) (x : Value) : node.assign schema R x = .error e := by
  cases node with
  | root n => cases h
  | child parent relation strategy =>
    rw [current_child_eq hn.2] at h
    rw [assign, rebuilt]
    cases hholder : parent.current schema R with
    | error e =>
      rw [hholder] at h
      cases h
      rfl
    | ok holder =>
      cases hread : schema.read holder relation.property.name with
      | error e =>
        simp only [hholder, readRelation, hread, bind, Except.bind, Except.mapError] at h ⊢
        cases h
        rfl
      | ok container =>
        cases hextract : strategy.extract (some container) with
        | ok v => simp [hholder, readRelation, hread, hextract, bind, Except.bind, Except.mapError] at h
        | error cause =>
          simp only [hholder, readRelation, hread, hextract, bind, Except.bind, Except.mapError] at h ⊢
          cases h
          rcases Strategy.rebuild_of_extract_error (x := x) hn.2 hextract with hinner | ⟨key, entries, rfl, rfl, hkey⟩
          · rw [hinner]
          · exact absurd ⟨parent, relation, key, holder, entries, rfl, hholder, hread, hkey⟩ hvacant

end Address

namespace Workspace

variable {w : Workspace} {node : Address} {x : Value}

theorem assign_answer (w : Workspace) (node : Address) (x : Value) :
    (w.assign node x).1 = (node.assign w.schema (w.root node.origin) x).map fun _ => () := by
  unfold assign edit Edit.assign
  cases node.assign w.schema (w.root node.origin) x <;> rfl

/-- Assigning that fails leaves the roots as they are. -/
theorem roots_of_assign_error {e : ResolutionError} (h : (w.assign node x).1 = .error e) :
    (w.assign node x).2.roots = w.roots := by
  rw [assign_answer] at h
  unfold assign edit Edit.assign
  cases hassign : node.assign w.schema (w.root node.origin) x with
  | ok R' => simp [hassign, Except.map] at h
  | error e =>
    change w.roots.set node.origin (w.roots.getD node.origin .null) = w.roots
    by_cases hlt : node.origin < w.roots.length
    · rw [List.getD_eq_getElem _ _ hlt, List.set_getElem_self]
    · exact List.set_eq_of_length_le (Nat.not_lt.1 hlt)

theorem assign_of_vacant (hn : node.Plain) (h : node.Vacant w.schema (w.root node.origin)) (x : Value) :
    (w.assign node x).1 = .ok () := by
  obtain ⟨R', hassign⟩ := Address.assign_of_vacant hn h x
  rw [assign_answer, hassign]
  rfl

/-- Assigning answers as reading does, but for the value, at an address that is not that of a key which a map does not
have. -/
theorem assign_of_not_vacant (hn : node.Plain) (h : ¬ node.Vacant w.schema (w.root node.origin)) (x : Value) :
    (w.assign node x).1 = (w.current node).map fun _ => () := by
  rw [assign_answer]
  cases hcurrent : w.current node with
  | ok v =>
    rw [Address.assign_of_current hn hcurrent]
    rfl
  | error e =>
    rw [Address.assign_of_current_error hn hcurrent h x, Except.map]

/-- **Assigning replaces a value, or adds a key to a map.** It succeeds where a value is read, and at the keys that a
map does not have, where none is read; where it fails, reading fails with the same error, and all addresses read as
before. -/
theorem assign_exact (w : Workspace) (hn : node.Plain) (x : Value) :
    ((w.assign node x).1 = .ok () ↔
      (∃ v, w.current node = .ok v) ∨ node.Vacant w.schema (w.root node.origin)) ∧
    (node.Vacant w.schema (w.root node.origin) → ∃ e, w.current node = .error e) ∧
    ∀ e, (w.assign node x).1 = .error e → w.current node = .error e ∧ (w.assign node x).2.roots = w.roots ∧
      ∀ other, (w.assign node x).2.current other = w.current other := by
  refine ⟨?_, Address.current_of_vacant, fun e h => ⟨?_, roots_of_assign_error h, fun other => ?_⟩⟩
  · by_cases hvacant : node.Vacant w.schema (w.root node.origin)
    · exact ⟨fun _ => .inr hvacant, fun _ => assign_of_vacant hn hvacant x⟩
    · rw [assign_of_not_vacant hn hvacant]
      cases w.current node <;> simp [Except.map, hvacant]
  · have hvacant : ¬ node.Vacant w.schema (w.root node.origin) := by
      intro hvacant
      cases (assign_of_vacant hn hvacant x).symm.trans h
    rw [assign_of_not_vacant hn hvacant] at h
    cases hcurrent : w.current node with
    | ok v => simp [hcurrent, Except.map] at h
    | error e' => simpa [hcurrent, Except.map] using h
  · rw [current, current, root, root, roots_of_assign_error h]
    rfl

end Workspace

namespace Shelf

/-- Catalogs with a map of articles. -/
def entities : Schema where
  types := [
    ⟨"Catalog", some "id", [⟨"articles", some "Article", .map, none, false⟩]⟩,
    ⟨"Article", some "id", []⟩]
  sound := by decide
  distinct := by decide

/-- A catalog with one article. -/
def catalog : Value :=
  .entity "Catalog" [("articles", .map [(.text "ink", .entity "Article" [("name", .text "blue")])])]

def workspace : Workspace := ⟨entities, [catalog], []⟩

/-- The address of an article. -/
def articleAt (strategy : Strategy) : Address :=
  .child (.root 0) ⟨"Catalog", ⟨"articles", some "Article", .map, none, false⟩, ⟨["articles"]⟩⟩ strategy

end Shelf

namespace Workspace

/-- Articles are not found by position, and nothing is changed when one is assigned there. -/
theorem assign_exact_article :
    (Shelf.articleAt (.listIndex 0)).Plain ∧
      Shelf.workspace.current (Shelf.articleAt (.listIndex 0)) =
        .error (.unresolved (Shelf.articleAt (.listIndex 0)) (.shape .list (some .map))) ∧
      (Shelf.workspace.assign (Shelf.articleAt (.listIndex 0)) .null).2.roots = [Shelf.catalog] ∧
      (Shelf.workspace.assign (Shelf.articleAt (.mapKey (.text "ink"))) .null).1 = .ok () := by
  have hindex : (Shelf.articleAt (.listIndex 0)).Plain := ⟨trivial, trivial⟩
  have hkey : (Shelf.articleAt (.mapKey (.text "ink"))).Plain := ⟨trivial, trivial⟩
  obtain ⟨hcurrent, hroots, -⟩ := (assign_exact Shelf.workspace hindex .null).2.2 _ rfl
  exact ⟨hindex, hcurrent, hroots, (assign_exact Shelf.workspace hkey .null).1.2 (.inl ⟨_, rfl⟩)⟩

/-- An article that is not in the catalog can be assigned. -/
theorem not_assign_iff_current :
    ¬ ∀ (w : Workspace) (node : Address) (x : Value), node.Plain →
      ((w.assign node x).1 = .ok () ↔ ∃ v, w.current node = .ok v) := by
  intro h
  have hplain : (Shelf.articleAt (.mapKey (.text "pen"))).Plain := ⟨trivial, trivial⟩
  obtain ⟨v, hv⟩ := (h Shelf.workspace _ .null hplain).1 rfl
  cases hv

end Workspace

end Aggregate
