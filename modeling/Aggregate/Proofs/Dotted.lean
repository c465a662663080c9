import Mathlib
import Aggregate.Path

/-!
# Paths as texts, there and back

What a path is read as after it was written as a text with dots.

- `Path.segments_ofDotted_append`: a text with a dot in it is read as its two parts, one after the other;
- `Path.segments_ofDotted_dotted`: so the text of a path is read name by name, and a name is read as the names between
  its own dots;
- `Path.segments_ofDotted_of_dotless`: where no name holds a dot, only empty names are lost;
- `Path.Plain`: no name is empty or holds a dot; reading gives no other names (`Path.plain_ofDotted`);
- `Path.dotted_lossless`: a path comes back from its text if and only if it is plain.
-/

namespace Aggregate.Path

/-- Each name of the path stands for itself between dots: it is not empty and holds no dot. -/
def Plain (p : Path) : Prop := ∀ s ∈ p.segments, s ≠ "" ∧ '.' ∉ s.toList

instance (p : Path) : Decidable p.Plain := inferInstanceAs (Decidable (∀ s ∈ p.segments, s ≠ "" ∧ '.' ∉ s.toList))

/-! ## Reading a text -/

theorem cut_eq_splitOn (cs : List Char) : cut cs = cs.splitOn '.' := by
  rw [List.splitOn_eq_splitOnP]
  fun_induction cut cs with
  | case1 => rfl
  | case2 rest ih => rw [List.splitOnP_cons_eq_if_modifyHead, ← ih]; rfl
  | case3 c rest hc hnil ih => exact absurd (ih.symm.trans hnil) (List.splitOnP_ne_nil _ rest)
  | case4 c rest hc word words hcut ih =>
    rw [List.splitOnP_cons_eq_if_modifyHead, ← ih, hcut, if_neg (by simpa using hc)]
    rfl

/-- No part holds a dot. -/
theorem dot_notMem_of_mem_cut {cs part : List Char} (h : part ∈ cut cs) : '.' ∉ part := by
  fun_induction cut cs generalizing part with
  | case1 =>
    rw [List.mem_singleton.1 h]
    exact List.not_mem_nil
  | case2 rest ih =>
    rcases List.mem_cons.1 h with rfl | h
    · exact List.not_mem_nil
    · exact ih h
  | case3 c rest hc hnil =>
    rw [List.mem_singleton.1 h, List.mem_singleton]
    exact fun heq => hc heq.symm
  | case4 c rest hc word words hcut ih =>
    rcases List.mem_cons.1 h with rfl | h
    · exact List.not_mem_cons_of_ne_of_not_mem (fun heq => hc heq.symm) (ih (hcut ▸ List.mem_cons_self))
    · exact ih (hcut ▸ List.mem_cons_of_mem word h)

/-- A text with a dot in it is read as its two parts, one after the other. -/
theorem segments_ofDotted_append (s t : String) :
    (ofDotted (s ++ "." ++ t)).segments = (ofDotted s).segments ++ (ofDotted t).segments := by
  have htext : (s ++ "." ++ t).toList = s.toList ++ '.' :: t.toList := by simp
  have hcut : cut (s ++ "." ++ t).toList = cut s.toList ++ cut t.toList := by
    simp only [cut_eq_splitOn, List.splitOn_eq_splitOnP, htext]
    exact List.splitOnP_append_cons _ _ rfl
  simp only [ofDotted, hcut, List.filter_append, List.map_append]

/-- A name without dots is read as it is. -/
theorem segments_ofDotted_self {s : String} (hne : s ≠ "") (hdot : '.' ∉ s.toList) :
    (ofDotted s).segments = [s] := by
  have hcut : cut s.toList = [s.toList] := by
    rw [cut_eq_splitOn, List.splitOn_eq_splitOnP]
    refine List.splitOnP_eq_singleton fun c hc => beq_false_of_ne ?_
    rintro rfl
    exact hdot hc
  simp [ofDotted, hcut, hne]

/-- What is read has no empty names, and no dots in names. -/
theorem plain_ofDotted (text : String) : (ofDotted text).Plain := by
  intro s hs
  obtain ⟨cs, hcs, rfl⟩ := List.mem_map.1 hs
  obtain ⟨hcut, hne⟩ := List.mem_filter.1 hcs
  exact ⟨by simpa using hne, by simpa using dot_notMem_of_mem_cut hcut⟩

/-! ## Reading the text of a path -/

/-- The text of a path is read name by name. -/
theorem segments_ofDotted_dotted (p : Path) :
    (ofDotted p.dotted).segments = p.segments.flatMap fun s => (ofDotted s).segments := by
  obtain ⟨segments⟩ := p
  induction segments with
  | nil => rfl
  | cons s rest ih =>
    cases rest with
    | nil => simp [dotted]
    | cons t rest =>
      have htext : dotted ⟨s :: t :: rest⟩ = s ++ "." ++ dotted ⟨t :: rest⟩ := String.intercalate_cons_cons
      rw [htext, segments_ofDotted_append, ih]
      rfl

/-- Where no name holds a dot, reading leaves out the empty names and keeps the others. -/
theorem segments_ofDotted_of_dotless {p : Path} (h : ∀ s ∈ p.segments, '.' ∉ s.toList) :
    (ofDotted p.dotted).segments = p.segments.filter (· ≠ "") := by
  rw [segments_ofDotted_dotted]
  obtain ⟨segments⟩ := p
  induction segments with
  | nil => rfl
  | cons s rest ih =>
    obtain ⟨hs, hrest⟩ := List.forall_mem_cons.1 h
    rw [List.flatMap_cons, ih hrest]
    by_cases hempty : s = ""
    · subst hempty
      rfl
    · rw [segments_ofDotted_self hempty hs, List.filter_cons_of_pos (by simpa using hempty)]
      rfl

theorem Plain.ofDotted_dotted {p : Path} (h : p.Plain) : ofDotted p.dotted = p := by
  have hkept : p.segments.filter (· ≠ "") = p.segments :=
    List.filter_eq_self.2 fun s hs => decide_eq_true (h s hs).1
  calc ofDotted p.dotted
      = ⟨(ofDotted p.dotted).segments⟩ := rfl
    _ = ⟨p.segments.filter (· ≠ "")⟩ := by rw [segments_ofDotted_of_dotless fun s hs => (h s hs).2]
    _ = p := by rw [hkept]

/-- A path comes back from its text if and only if none of its names is empty or holds a dot. Whatever text is read gives
such a path, which comes back from its own text; two such paths have one text only if they are equal. A text is read as
what stands between its dots, without what is empty. -/
theorem dotted_lossless :
    (∀ p : Path, ofDotted p.dotted = p ↔ p.Plain) ∧
      (∀ text, (ofDotted text).Plain ∧ ofDotted (ofDotted text).dotted = ofDotted text) ∧
      (∀ p q : Path, p.Plain → q.Plain → p.dotted = q.dotted → p = q) ∧
      ∀ p : Path, (∀ s ∈ p.segments, '.' ∉ s.toList) → (ofDotted p.dotted).segments = p.segments.filter (· ≠ "") := by
  refine ⟨fun p => ⟨fun h => h ▸ plain_ofDotted p.dotted, Plain.ofDotted_dotted⟩, fun text => ?_,
    fun p q hp hq htext => ?_, fun p => segments_ofDotted_of_dotless⟩
  · exact ⟨plain_ofDotted text, (plain_ofDotted text).ofDotted_dotted⟩
  · calc p = ofDotted p.dotted := hp.ofDotted_dotted.symm
      _ = ofDotted q.dotted := by rw [htext]
      _ = q := hq.ofDotted_dotted

/-- A text with dots too many is read as a path of two names, and the name of a property with a dot in it is read as two
names. -/
theorem dotted_lossless_items :
    (⟨["lines", "items"]⟩ : Path).Plain ∧ (ofDotted "lines..items.").Plain ∧
      dotted ⟨["lines", "items"]⟩ = dotted (ofDotted "lines..items.") ∧
      ⟨["lines", "items"]⟩ = ofDotted "lines..items." ∧ ofDotted (dotted ⟨["lines.items"]⟩) ≠ ⟨["lines.items"]⟩ ∧
      (∀ s ∈ ["", "lines", "", "items"], '.' ∉ s.toList) ∧
      (ofDotted (dotted ⟨["", "lines", "", "items"]⟩)).segments = ["lines", "items"] := by
  obtain ⟨hback, hread, hsame, hkept⟩ := dotted_lossless
  have hitems : (⟨["lines", "items"]⟩ : Path).Plain := by decide
  have hdots : (ofDotted "lines..items.").Plain := (hread _).1
  have htext : dotted ⟨["lines", "items"]⟩ = dotted (ofDotted "lines..items.") := by decide
  have hdotless : ∀ s ∈ ["", "lines", "", "items"], '.' ∉ s.toList := by decide
  exact ⟨hitems, hdots, htext, hsame _ _ hitems hdots htext, fun h => absurd ((hback _).1 h) (by decide), hdotless,
    hkept ⟨["", "lines", "", "items"]⟩ hdotless⟩

end Aggregate.Path
