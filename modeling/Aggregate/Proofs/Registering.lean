import Mathlib
import Aggregate.Settings.Loading

/-!
# Declarations and the schemas made of them

Which declarations of entity types make a schema, and that the check of settings passes the same ones.

- `EntityType.Valid`: what a single declaration has to keep to; `EntityType.defect?_eq_none_iff`: the search for defects
  finds none if and only if it does;
- `Declarable`: all declarations are valid, and no two have one name;
- `Schema.Refused`: the error by which a declaration is kept from following others. `Schema.register_eq_ok_iff` and
  `Schema.register_eq_error_iff` say what one registration does, `Schema.ofList_eq_ok_iff` and
  `Schema.ofList_eq_error_iff` what several do, by induction on them;
- `Settings.problemsBehind_eq_nil_iff`: the check that collects all problems, by induction from the other end;
- `Settings.schema_exact`: both accept the declarable lists, and the schema holds what is declared.
-/

namespace Aggregate

/-! ## Single declarations -/

/-- The name of the entity type and the other names that are given are not blank, and each property that holds entities
has a target. -/
structure EntityType.Valid (e : EntityType) : Prop where
  name : Unicode.isBlankText e.name = false
  idProperty : ∀ name, e.idProperty = some name → Unicode.isBlankText name = false
  target : ∀ p ∈ e.properties, p.holding ≠ .scalar → p.target ≠ none
  keyColumn : ∀ p ∈ e.properties, ∀ column, p.keyColumn = some column → Unicode.isBlankText column = false

namespace EntityType

theorem isBlankName_eq_false_iff {name : Option String} :
    isBlankName name = false ↔ ∀ s, name = some s → Unicode.isBlankText s = false := by
  cases name <;> simp [isBlankName]

theorem propertyDefect?_eq_none_iff {p : Property} :
    propertyDefect? p = none ↔ (p.holding ≠ .scalar → p.target ≠ none) ∧
      ∀ column, p.keyColumn = some column → Unicode.isBlankText column = false := by
  rw [propertyDefect?, ← isBlankName_eq_false_iff]
  cases p.target <;> by_cases hscalar : p.holding = .scalar <;> simp [hscalar]

theorem defect?_eq_none_iff {e : EntityType} : e.defect? = none ↔ e.Valid := by
  rw [defect?]
  constructor
  · intro h
    split at h
    · cases h
    rename_i hname
    split at h
    · cases h
    rename_i hid
    have hproperty (p : Property) (hp : p ∈ e.properties) :=
      propertyDefect?_eq_none_iff.1 (List.findSome?_eq_none_iff.1 h p hp)
    exact ⟨by simpa using hname, isBlankName_eq_false_iff.1 (by simpa using hid), fun p hp => (hproperty p hp).1,
      fun p hp => (hproperty p hp).2⟩
  · intro h
    rw [h.name, isBlankName_eq_false_iff.2 h.idProperty]
    exact List.findSome?_eq_none_iff.2 fun p hp => propertyDefect?_eq_none_iff.2 ⟨h.target p hp, h.keyColumn p hp⟩

end EntityType

/-! ## Lists of declarations -/

/-- All declarations are valid, and no two have one name. -/
structure Declarable (es : List EntityType) : Prop where
  valid : ∀ e ∈ es, e.Valid
  distinct : (es.map EntityType.name).Nodup

variable {e : EntityType} {es : List EntityType}

theorem Declarable.nil : Declarable [] := ⟨nofun, List.nodup_nil⟩

theorem declarable_cons : Declarable (e :: es) ↔ e.Valid ∧ e.name ∉ es.map EntityType.name ∧ Declarable es := by
  constructor
  · rintro ⟨hvalid, hdistinct⟩
    obtain ⟨hfirst, hrest⟩ := List.forall_mem_cons.1 hvalid
    obtain ⟨hname, hnames⟩ := List.nodup_cons.1 hdistinct
    exact ⟨hfirst, hname, hrest, hnames⟩
  · rintro ⟨hfirst, hname, hrest, hnames⟩
    exact ⟨List.forall_mem_cons.2 ⟨hfirst, hrest⟩, List.nodup_cons.2 ⟨hname, hnames⟩⟩

theorem Declarable.perm {fs : List EntityType} (h : Declarable es) (hperm : es.Perm fs) : Declarable fs :=
  ⟨fun e he => h.valid e (hperm.mem_iff.2 he), (hperm.map _).nodup_iff.1 h.distinct⟩

theorem declarable_concat : Declarable (es ++ [e]) ↔ e.Valid ∧ e.name ∉ es.map EntityType.name ∧ Declarable es := by
  rw [← declarable_cons]
  exact ⟨fun h => h.perm (List.perm_append_singleton e es), fun h => h.perm (List.perm_append_singleton e es).symm⟩

/-! ## Registering -/

namespace Schema

variable {s t : Schema} {error : MappingError}

/-- A declaration that is not valid, or else has the name of one before it, is refused by this error. -/
inductive Refused (before : List EntityType) (e : EntityType) : MappingError → Prop
  | defective {defect : EntityType.Defect} (h : e.defect? = some defect) : Refused before e (.defective e.name defect)
  | repeated (hvalid : e.Valid) (h : ∃ f ∈ before, f.name = e.name) : Refused before e (.registeredTwice e.name)

theorem eq_of_types (h : s.types = t.types) : s = t := by
  cases s
  cases t
  cases h
  rfl

theorem exists_of_declarable (h : Declarable es) : ∃ s : Schema, s.types = es :=
  ⟨⟨es, fun e he => EntityType.defect?_eq_none_iff.2 (h.valid e he), h.distinct⟩, rfl⟩

theorem register_eq_ok_iff :
    s.register e = .ok t ↔ e.Valid ∧ e.name ∉ s.types.map EntityType.name ∧ t.types = s.types ++ [e] := by
  rw [← EntityType.defect?_eq_none_iff, register]
  split
  · rename_i defect hdefect
    simp [hdefect]
  · rename_i hvalid
    split
    · rename_i hname
      simp [hname]
    · rename_i hname
      refine ⟨fun h => ?_, fun h => ?_⟩
      · cases h
        exact ⟨hvalid, hname, rfl⟩
      · exact congrArg Except.ok (eq_of_types h.2.2.symm)

theorem refused_iff_of_valid {before : List EntityType} (hvalid : e.Valid) :
    Refused before e error ↔ e.name ∈ before.map EntityType.name ∧ .registeredTwice e.name = error := by
  constructor
  · rintro (⟨h⟩ | ⟨-, h⟩)
    · cases h.symm.trans (EntityType.defect?_eq_none_iff.2 hvalid)
    · exact ⟨List.mem_map.2 h, rfl⟩
  · rintro ⟨h, rfl⟩
    exact .repeated hvalid (List.mem_map.1 h)

theorem register_eq_error_iff : s.register e = .error error ↔ Refused s.types e error := by
  rw [register]
  split
  · rename_i defect hdefect
    constructor
    · intro h
      cases h
      exact .defective hdefect
    · rintro (⟨h⟩ | ⟨hvalid, -⟩)
      · cases hdefect.symm.trans h
        rfl
      · cases hdefect.symm.trans (EntityType.defect?_eq_none_iff.2 hvalid)
  · rename_i hnone
    rw [refused_iff_of_valid (EntityType.defect?_eq_none_iff.1 hnone)]
    split <;> simp_all

theorem ofList_concat (es : List EntityType) (e : EntityType) :
    ofList (es ++ [e]) = (ofList es).bind (·.register e) := by
  rw [ofList, registerAll, List.foldlM_append]
  refine congrArg _ (funext fun s => ?_)
  simp

/-- Several declarations make a schema if and only if they are declarable, and the schema is made of them. -/
theorem ofList_eq_ok_iff : ofList es = .ok s ↔ Declarable es ∧ s.types = es := by
  -- from the end: a declaration is checked against the schema of all those before it
  induction es using List.reverseRecOn generalizing s with
  | nil => exact ⟨fun h => by cases h; exact ⟨.nil, rfl⟩, fun h => congrArg Except.ok (eq_of_types h.2.symm)⟩
  | append_singleton es e ih =>
    rw [ofList_concat, declarable_concat]
    constructor
    · intro h
      cases hes : ofList es with
      | error => rw [hes] at h; cases h
      | ok t =>
        rw [hes] at h
        obtain ⟨hdeclarable, rfl⟩ := ih.1 hes
        obtain ⟨hvalid, hname, htypes⟩ := register_eq_ok_iff.1 h
        exact ⟨⟨hvalid, hname, hdeclarable⟩, htypes⟩
    · rintro ⟨⟨hvalid, hname, hdeclarable⟩, htypes⟩
      obtain ⟨t, rfl⟩ := exists_of_declarable hdeclarable
      rw [ih.2 ⟨hdeclarable, rfl⟩]
      exact register_eq_ok_iff.2 ⟨hvalid, hname, htypes⟩

/-- Several declarations make no schema if and only if one is refused behind others that do make one. -/
theorem ofList_eq_error_iff : ofList es = .error error ↔
    ∃ before e after, es = before ++ e :: after ∧ Declarable before ∧ Refused before e error := by
  induction es using List.reverseRecOn with
  | nil => exact ⟨nofun, fun ⟨_, _, _, h, _⟩ => by simp at h⟩
  | append_singleton es f ih =>
    rw [ofList_concat]
    constructor
    · intro h
      cases hes : ofList es with
      | error error' =>
        rw [hes] at h
        cases h
        obtain ⟨before, e, after, rfl, hbefore, hrefused⟩ := ih.1 hes
        exact ⟨before, e, after ++ [f], by simp, hbefore, hrefused⟩
      | ok t =>
        rw [hes] at h
        obtain ⟨hdeclarable, rfl⟩ := ofList_eq_ok_iff.1 hes
        exact ⟨t.types, f, [], rfl, hdeclarable, register_eq_error_iff.1 h⟩
    · rintro ⟨before, e, after, hes, hbefore, hrefused⟩
      rcases List.eq_nil_or_concat' after with rfl | ⟨after, g, rfl⟩
      · -- the last declaration is refused
        obtain ⟨rfl, hlast⟩ := List.append_inj' hes rfl
        cases hlast
        obtain ⟨t, rfl⟩ := exists_of_declarable hbefore
        rw [ofList_eq_ok_iff.2 ⟨hbefore, rfl⟩]
        exact register_eq_error_iff.2 hrefused
      · rw [← List.cons_append, ← List.append_assoc] at hes
        rw [ih.2 ⟨before, e, after, (List.append_inj' hes rfl).1, hbefore, hrefused⟩]
        rfl

theorem entity?_eq_some_iff {name : String} : s.entity? name = some e ↔ e ∈ s.types ∧ e.name = name := by
  constructor
  · exact fun h => ⟨List.mem_of_find?_eq_some h, entity?_name h⟩
  · rintro ⟨he, rfl⟩
    have hsome : (s.entity? e.name).isSome := List.find?_isSome.2 ⟨e, he, by simp⟩
    obtain ⟨f, hf⟩ := Option.isSome_iff_exists.1 hsome
    rw [hf, List.inj_on_of_nodup_map s.distinct he (List.mem_of_find?_eq_some hf) (entity?_name hf).symm]

end Schema

/-! ## Checking settings -/

/-- Whether a problem is one of a declared entity type. -/
def Problem.isOfEntity : Problem → Bool
  | entity .. | repeated _ => true
  | noDepth | logging _ => false

namespace Settings

theorem entityProblems_eq_nil_iff {names : List String} : entityProblems names e = [] ↔ e.Valid ∧ e.name ∉ names := by
  rw [entityProblems, List.append_eq_nil_iff, ← EntityType.defect?_eq_none_iff]
  cases e.defect? <;> simp

theorem problemsBehind_eq_nil_iff {names : List String} :
    problemsBehind names es = [] ↔ Declarable es ∧ ∀ e ∈ es, e.name ∉ names := by
  induction es generalizing names with
  | nil => simp [problemsBehind, Declarable.nil]
  | cons e es ih =>
    rw [problemsBehind, List.append_eq_nil_iff, entityProblems_eq_nil_iff, ih, declarable_cons, List.forall_mem_cons]
    -- the names that the rest is checked against are those given and the first declaration's own
    simp only [List.mem_cons, List.mem_map, not_or, not_exists, not_and]
    grind

theorem isOfEntity_of_mem_problemsBehind {names : List String} {p : Problem} (h : p ∈ problemsBehind names es) :
    p.isOfEntity = true := by
  induction es generalizing names with
  | nil => cases h
  | cons e es ih =>
    rcases List.mem_append.1 h with h | h
    · rw [entityProblems] at h
      cases hdefect : e.defect? <;> grind [Problem.isOfEntity]
    · exact ih h

/-- The problems of declared entity types are those that the declarations have behind no others. -/
theorem filter_problems (s : Settings) : s.problems.filter Problem.isOfEntity = problemsBehind [] s.entities := by
  have hothers : ((if s.maxDepth = 0 then [Problem.noDepth] else []) ++
      (s.logging.defect?.map Problem.logging).toList).filter Problem.isOfEntity = [] := by
    cases s.logging.defect? <;> split <;> rfl
  rw [problems, List.filter_append, hothers, List.nil_append]
  exact List.filter_eq_self.2 fun p => isOfEntity_of_mem_problemsBehind

theorem forall_problems_iff {s : Settings} : (∀ p ∈ s.problems, p.isOfEntity = false) ↔ Declarable s.entities := by
  calc (∀ p ∈ s.problems, p.isOfEntity = false)
      ↔ s.problems.filter Problem.isOfEntity = [] := by simp [List.filter_eq_nil_iff]
    _ ↔ Declarable s.entities := by rw [filter_problems, problemsBehind_eq_nil_iff]; simp

/-! ## Loading settings -/

/-- Settings to start from: those that are used without any source, and those that sources give. -/
inductive Loaded : Settings → Prop
  | absent : Loaded {}
  | ofText {text : String} {s : Settings} (h : ofText text = .ok s) : Loaded s
  | ofFile {content : Option String} {s : Settings} (h : ofFile content = .ok s) : Loaded s
  | load {content : Option String} {vars : List (String × String)} {s : Settings} (h : load content vars = .ok s) :
    Loaded s

variable {s : Settings}

theorem problems_of_ofSources {sources : List (List (String × Data))} (h : ofSources sources = .ok s) :
    s.problems = [] := by
  rw [ofSources] at h
  split at h
  · cases h
  · split at h
    · rename_i hproblems
      cases h
      exact hproblems
    · cases h

theorem problems_of_ofText {text : String} (h : Settings.ofText text = .ok s) : s.problems = [] := by
  rw [Settings.ofText] at h
  cases hentries : textEntries text with
  | error => rw [hentries] at h; cases h
  | ok entries => rw [hentries] at h; exact problems_of_ofSources h

theorem problems_of_load {content : Option String} {vars : List (String × String)}
    (h : Settings.load content vars = .ok s) : s.problems = [] := by
  cases content with
  | none => exact problems_of_ofSources h
  | some text =>
    rw [Settings.load] at h
    cases hentries : textEntries text with
    | error => simp only [hentries] at h; cases h
    | ok entries => simp only [hentries] at h; exact problems_of_ofSources h

/-- Loaded settings have no problems. -/
theorem Loaded.problems_eq_nil (h : Loaded s) : s.problems = [] := by
  cases h with
  | absent => rfl
  | ofText h => exact problems_of_ofText h
  | @ofFile content s h =>
    cases content with
    | none => cases h
    | some text => exact problems_of_ofText h
  | load h => exact problems_of_load h

theorem schema_eq_ok_iff {t : Schema} : s.schema = .ok t ↔ Declarable s.entities ∧ t.types = s.entities :=
  Schema.ofList_eq_ok_iff

theorem exists_schema_iff : (∃ t, s.schema = .ok t) ↔ Declarable s.entities := by
  constructor
  · rintro ⟨t, ht⟩
    exact (schema_eq_ok_iff.1 ht).1
  · intro h
    obtain ⟨t, ht⟩ := Schema.exists_of_declarable h
    exact ⟨t, schema_eq_ok_iff.2 ⟨h, ht⟩⟩

/-- The declared entity types make a schema if and only if the check of the settings reports no problem of an entity type,
that is, if and only if each declaration is valid and no two have one name. The schema then holds these declarations, each
found under its own name, and nothing under other names; other settings that declare the same in another order have a
schema in which each name finds the same. If there is no schema, then because of the first declaration that is not valid or
has the name of an earlier one, which the error names. All settings that are loaded have a schema with as many entity types
as they declare. -/
theorem schema_exact (s : Settings) :
    ((∃ t, s.schema = .ok t) ↔ ∀ p ∈ s.problems, p.isOfEntity = false) ∧
      ((∀ p ∈ s.problems, p.isOfEntity = false) ↔ Declarable s.entities) ∧
      (∀ t, s.schema = .ok t → t.size = s.entities.length ∧
        (∀ name e, t.entity? name = some e ↔ e ∈ s.entities ∧ e.name = name) ∧
        ∀ s' : Settings, s'.entities.Perm s.entities →
          ∃ t', s'.schema = .ok t' ∧ t'.size = t.size ∧ ∀ name, t'.entity? name = t.entity? name) ∧
      (∀ error, s.schema = .error error ↔ ∃ before e after, s.entities = before ++ e :: after ∧
        Declarable before ∧ Schema.Refused before e error) ∧
      (Loaded s → ∃ t, s.schema = .ok t ∧ t.size = s.entities.length) := by
  refine ⟨?_, forall_problems_iff, ?_, fun error => Schema.ofList_eq_error_iff, ?_⟩
  · rw [exists_schema_iff, forall_problems_iff]
  · intro t ht
    obtain ⟨hdeclarable, htypes⟩ := schema_eq_ok_iff.1 ht
    have hfound (name : String) (e : EntityType) : t.entity? name = some e ↔ e ∈ s.entities ∧ e.name = name := by
      rw [Schema.entity?_eq_some_iff, htypes]
    refine ⟨congrArg List.length htypes, hfound, fun s' hperm => ?_⟩
    obtain ⟨t', ht'⟩ := exists_schema_iff.2 (hdeclarable.perm hperm.symm)
    have htypes' := (schema_eq_ok_iff.1 ht').2
    refine ⟨t', ht', ?_, fun name => Option.ext fun e => ?_⟩
    · rw [Schema.size, Schema.size, htypes, htypes', hperm.length_eq]
    · rw [hfound, Schema.entity?_eq_some_iff, htypes', hperm.mem_iff]
  · intro h
    have hnone : ∀ p ∈ s.problems, p.isOfEntity = false := by
      rw [h.problems_eq_nil]
      exact List.forall_mem_nil _
    obtain ⟨t, ht⟩ := exists_schema_iff.2 (forall_problems_iff.1 hnone)
    exact ⟨t, ht, congrArg List.length (schema_eq_ok_iff.1 ht).2⟩

/-- Orders, known by their numbers. -/
def order : EntityType := ⟨"Order", some "number", []⟩

def line : EntityType := ⟨"Line", none, []⟩

/-- Orders once more, with a list of nothing. -/
def again : EntityType := ⟨"Order", none, [⟨"lines", none, .list, none, false⟩]⟩

/-- The declarations of orders and lines. -/
def shop : String := "[[entities]]\nname = 'Order'\nid_property = 'number'\n[[entities]]\nname = 'Line'"

/-- Orders and lines make a schema, in either order. A second declaration of orders, not valid and repeated, does not. -/
theorem schema_exact_shop :
    (∃ s, ofText shop = .ok s ∧ Loaded s ∧ s.entities = [order, line] ∧
      ∃ t, s.schema = .ok t ∧ t.size = 2 ∧ t.entity? "Line" = some line ∧
        ∃ t', ({ entities := [line, order] } : Settings).schema = .ok t' ∧
          ∀ name, t'.entity? name = t.entity? name) ∧
      ({ entities := [order, again] } : Settings).problems =
        [.entity "Order" (.untargeted "lines"), .repeated "Order"] ∧
      ({ entities := [order, again] } : Settings).schema = .error (.defective "Order" (.untargeted "lines")) := by
  constructor
  · have hread : (ofText shop).toOption.map (·.entities) = some [order, line] := by decide +kernel
    cases hs : ofText shop with
    | error => rw [hs] at hread; cases hread
    | ok s =>
      rw [hs] at hread
      have hentities : s.entities = [order, line] := Option.some.inj hread
      obtain ⟨-, -, hholds, -, hmakes⟩ := schema_exact s
      obtain ⟨t, ht, hsize⟩ := hmakes (.ofText hs)
      obtain ⟨-, hfound, hperm⟩ := hholds t ht
      obtain ⟨t', ht', -, hsame⟩ := hperm { entities := [line, order] } (hentities ▸ List.Perm.swap ..)
      exact ⟨s, rfl, .ofText hs, hentities, t, ht, by rw [hsize, hentities]; rfl,
        (hfound "Line" line).2 ⟨by simp [hentities], rfl⟩, t', ht', hsame⟩
  · have horder : Declarable [order] :=
      declarable_cons.2 ⟨EntityType.defect?_eq_none_iff.1 (by decide), by decide, .nil⟩
    obtain ⟨-, -, -, hrefused, -⟩ := schema_exact { entities := [order, again] }
    exact ⟨by decide +kernel, (hrefused _).2 ⟨[order], again, [], rfl, horder, .defective (by decide)⟩⟩

end Settings

end Aggregate
