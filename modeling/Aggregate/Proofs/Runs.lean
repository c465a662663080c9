import Mathlib

/-!
# Runs

Computations that may fail, also on a state: what it takes that one answers, or fails, and leaves a state.

- `Except.bind_eq_ok`, `Except.pure_eq_ok`, `Except.mapError_eq_ok`: answers without a state;
- `ExceptT.Runs`, with one lemma for each way to build such a computation (`ExceptT.bind_of_runs` for what comes after);
- `ExceptT.Fails`, likewise; `ExceptT.Raises`: the errors with which a computation fails;
- `ExceptT.Alike`: two computations that answer together and fail together.
-/

namespace Except

variable {ε δ α β : Type}

theorem bind_eq_ok {x : Except ε α} {f : α → Except ε β} {b : β} :
    (x >>= f) = .ok b ↔ ∃ a, x = .ok a ∧ f a = .ok b := by
  cases x <;> simp [bind, Except.bind]

theorem pure_eq_ok {a b : α} : (pure a : Except ε α) = .ok b ↔ b = a := by
  simp [pure, Except.pure, eq_comm]

theorem mapError_eq_ok {x : Except ε α} {f : ε → δ} {a : α} : x.mapError f = .ok a ↔ x = .ok a := by
  cases x <;> simp [Except.mapError]

end Except

namespace ExceptT

variable {S ε α β : Type} {s s' : S}

/-- The computation on a state answers `a` and leaves the state `s'`. -/
def Runs (e : ExceptT ε (StateM S) α) (s : S) (a : α) (s' : S) : Prop :=
  (e s).1 = .ok a ∧ (e s).2 = s'

theorem runs_bind {e : ExceptT ε (StateM S) α} {f : α → ExceptT ε (StateM S) β} {b : β} :
    Runs (e >>= f) s b s' ↔ ∃ a s₁, Runs e s a s₁ ∧ Runs (f a) s₁ b s' := by
  unfold Runs
  simp only [bind, ExceptT.bind, ExceptT.mk, StateT.bind]
  rcases e s with ⟨x | a, s₁⟩
  · exact ⟨fun h => (nomatch h.1), fun ⟨_, _, h, _⟩ => (nomatch h.1)⟩
  · refine ⟨fun h => ⟨a, s₁, ⟨rfl, rfl⟩, h⟩, ?_⟩
    rintro ⟨_, _, ⟨⟨⟩, ⟨⟩⟩, h⟩
    exact h

/-- What comes after an answer. -/
theorem bind_of_runs {e : ExceptT ε (StateM S) α} {f : α → ExceptT ε (StateM S) β} {a : α} (h : Runs e s a s') :
    (e >>= f) s = f a s' := by
  obtain ⟨ha, rfl⟩ := h
  simp only [bind, ExceptT.bind, ExceptT.mk, StateT.bind]
  rcases hrun : e s with ⟨x | b, s₁⟩
  · rw [hrun] at ha
    cases ha
  · rw [hrun] at ha
    cases ha
    rfl

/-- Nothing comes after a failure. -/
theorem bind_of_error {e : ExceptT ε (StateM S) α} {f : α → ExceptT ε (StateM S) β} {x : ε} (h : e s = (.error x, s')) :
    (e >>= f) s = (.error x, s') := by
  simp only [bind, ExceptT.bind, ExceptT.mk, StateT.bind, h]
  rfl

theorem runs_pure {a b : α} : Runs (pure a : ExceptT ε (StateM S) α) s b s' ↔ a = b ∧ s = s' := by
  change (Except.ok a : Except ε α) = .ok b ∧ s = s' ↔ _
  simp

theorem not_runs_throw {x : ε} {b : α} : ¬ Runs (throw x : ExceptT ε (StateM S) α) s b s' :=
  fun h => nomatch h.1

theorem runs_get {b : S} : Runs (get : ExceptT ε (StateM S) S) s b s' ↔ s = b ∧ s = s' := by
  change (Except.ok s : Except ε S) = .ok b ∧ s = s' ↔ _
  simp

theorem runs_set {t : S} {u : PUnit} : Runs (set t : ExceptT ε (StateM S) PUnit) s u s' ↔ t = s' := by
  change (Except.ok PUnit.unit : Except ε PUnit) = .ok u ∧ t = s' ↔ _
  simp

theorem runs_modify {f : S → S} {u : PUnit} : Runs (modify f : ExceptT ε (StateM S) PUnit) s u s' ↔ f s = s' := by
  change (Except.ok PUnit.unit : Except ε PUnit) = .ok u ∧ f s = s' ↔ _
  simp

/-- An answer that does not depend on the state. -/
theorem runs_except {answer : Except ε α} {a : α} :
    Runs (liftM answer : ExceptT ε (StateM S) α) s a s' ↔ answer = .ok a ∧ s = s' :=
  Iff.rfl

/-- A computation that cannot fail. -/
theorem runs_state {m : StateM S α} {a : α} :
    Runs (liftM m : ExceptT ε (StateM S) α) s a s' ↔ m s = (a, s') := by
  change Except.ok (m s).1 = .ok a ∧ (m s).2 = s' ↔ _
  rw [Except.ok.injEq, Prod.ext_iff]

/-! ## Failures -/

/-- The computation on a state fails and leaves the state `s'`. -/
def Fails (e : ExceptT ε (StateM S) α) (s s' : S) : Prop :=
  (∃ x, (e s).1 = .error x) ∧ (e s).2 = s'

theorem fails_bind {e : ExceptT ε (StateM S) α} {f : α → ExceptT ε (StateM S) β} :
    Fails (e >>= f) s s' ↔ Fails e s s' ∨ ∃ a s₁, Runs e s a s₁ ∧ Fails (f a) s₁ s' := by
  unfold Fails Runs
  simp only [bind, ExceptT.bind, ExceptT.mk, StateT.bind]
  rcases e s with ⟨x | a, s₁⟩
  · exact ⟨fun h => .inl ⟨⟨x, rfl⟩, h.2⟩, by rintro (⟨-, h⟩ | ⟨_, _, ⟨h, _⟩, _⟩) <;> first | exact ⟨⟨x, rfl⟩, h⟩ | cases h⟩
  · refine ⟨fun h => .inr ⟨a, s₁, ⟨rfl, rfl⟩, h⟩, ?_⟩
    rintro (⟨⟨_, h⟩, -⟩ | ⟨_, _, ⟨⟨⟩, ⟨⟩⟩, h⟩)
    · cases h
    · exact h

theorem fails_throw {x : ε} : Fails (throw x : ExceptT ε (StateM S) α) s s' ↔ s = s' :=
  ⟨fun h => h.2, fun h => ⟨⟨x, rfl⟩, h⟩⟩

theorem fails_except {answer : Except ε α} :
    Fails (liftM answer : ExceptT ε (StateM S) α) s s' ↔ (∃ x, answer = .error x) ∧ s = s' :=
  Iff.rfl

theorem not_fails_pure {a : α} : ¬ Fails (pure a : ExceptT ε (StateM S) α) s s' :=
  fun ⟨⟨_, h⟩, _⟩ => nomatch h

theorem not_fails_get : ¬ Fails (get : ExceptT ε (StateM S) S) s s' :=
  fun ⟨⟨_, h⟩, _⟩ => nomatch h

theorem not_fails_set {t : S} : ¬ Fails (set t : ExceptT ε (StateM S) PUnit) s s' :=
  fun ⟨⟨_, h⟩, _⟩ => nomatch h

theorem not_fails_modify {f : S → S} : ¬ Fails (modify f : ExceptT ε (StateM S) PUnit) s s' :=
  fun ⟨⟨_, h⟩, _⟩ => nomatch h

theorem not_fails_state {m : StateM S α} : ¬ Fails (liftM m : ExceptT ε (StateM S) α) s s' :=
  fun ⟨⟨_, h⟩, _⟩ => nomatch h

/-! ## Errors -/

/-- The computation fails with errors of this kind only. -/
def Raises (P : ε → Prop) (e : ExceptT ε (StateM S) α) : Prop :=
  ∀ s x, (e s).1 = .error x → P x

section Raises

variable {P : ε → Prop}

theorem raises_bind {e : ExceptT ε (StateM S) α} {f : α → ExceptT ε (StateM S) β} (he : Raises P e)
    (hf : ∀ a, Raises P (f a)) : Raises P (e >>= f) := by
  intro s x
  have hs := he s x
  simp only [bind, ExceptT.bind, ExceptT.mk, StateT.bind]
  rcases hrun : e s with ⟨y | a, s₁⟩
  · rintro ⟨⟩
    exact hs (by rw [hrun])
  · exact hf a s₁ x

theorem raises_pure {a : α} : Raises P (pure a : ExceptT ε (StateM S) α) :=
  fun _ _ h => nomatch h

theorem raises_throw {x : ε} (hx : P x) : Raises P (throw x : ExceptT ε (StateM S) α) := by
  intro s y h
  cases h
  exact hx

theorem raises_get : Raises P (get : ExceptT ε (StateM S) S) :=
  fun _ _ h => nomatch h

end Raises

end ExceptT

/-! ## Computations side by side -/

namespace Except

variable {ε δ α β γ ζ : Type}

/-- Both are answers, which are related, or both are errors. -/
inductive Alike (P : α → β → Prop) : Except ε α → Except δ β → Prop
  | ok {a : α} {b : β} : P a b → Alike P (.ok a) (.ok b)
  | error {x : ε} {y : δ} : Alike P (.error x) (.error y)

namespace Alike

variable {P : α → β → Prop} {Q : γ → ζ → Prop} {a : Except ε α} {b : Except δ β}

theorem refl (a : Except ε α) : Alike (δ := ε) Eq a a := by
  cases a with
  | ok a => exact .ok rfl
  | error x => exact .error

theorem flip (h : Alike P a b) : Alike (fun b a => P a b) b a := by
  cases h with
  | ok h => exact .ok h
  | error => exact .error

theorem mapError {ε' δ' : Type} (h : Alike P a b) (f : ε → ε') (g : δ → δ') :
    Alike P (a.mapError f) (b.mapError g) := by
  cases h with
  | ok h => exact .ok h
  | error => exact .error

theorem bind {f : α → Except ε γ} {g : β → Except δ ζ} (h : Alike P a b) (hfg : ∀ a b, P a b → Alike Q (f a) (g b)) :
    Alike Q (a >>= f) (b >>= g) := by
  cases h with
  | ok h => exact hfg _ _ h
  | error => exact .error

end Alike

end Except

namespace ExceptT

variable {S ε δ α β γ ζ : Type}

/-- From states that agree, both computations answer with related answers or both fail, and leave states that agree. -/
def Alike (A : S → S → Prop) (P : α → β → Prop) (e : ExceptT ε (StateM S) α) (f : ExceptT δ (StateM S) β) : Prop :=
  ∀ s t, A s t → Except.Alike P (e s).1 (f t).1 ∧ A (e s).2 (f t).2

namespace Alike

variable {A : S → S → Prop} {P : α → β → Prop} {Q : γ → ζ → Prop} {e : ExceptT ε (StateM S) α}
  {f : ExceptT δ (StateM S) β}

theorem pure {a : α} {b : β} (h : P a b) :
    Alike A P (pure a : ExceptT ε (StateM S) α) (pure b : ExceptT δ (StateM S) β) :=
  fun _ _ hst => ⟨.ok h, hst⟩

theorem throw (x : ε) (y : δ) :
    Alike A P (throw x : ExceptT ε (StateM S) α) (throw y : ExceptT δ (StateM S) β) :=
  fun _ _ hst => ⟨.error, hst⟩

theorem flip (h : Alike A P e f) : Alike (fun t s => A s t) (fun b a => P a b) f e :=
  fun t s hst => ⟨(h s t hst).1.flip, (h s t hst).2⟩

theorem bind {g : α → ExceptT ε (StateM S) γ} {h : β → ExceptT δ (StateM S) ζ} (hef : Alike A P e f)
    (hgh : ∀ a b, P a b → Alike A Q (g a) (h b)) : Alike A Q (e >>= g) (f >>= h) := by
  intro s t hst
  obtain ⟨hends, hst⟩ := hef s t hst
  simp only [Bind.bind, ExceptT.bind, ExceptT.mk, StateT.bind]
  rcases he : e s with ⟨x | a, s₁⟩ <;> rcases hf : f t with ⟨y | b, t₁⟩ <;> rw [he, hf] at hends hst
  · exact ⟨.error, hst⟩
  · cases hends
  · cases hends
  · cases hends with
    | ok hab => exact hgh a b hab s₁ t₁ hst

/-- Where one of the two answers, so does the other. -/
theorem runs (h : Alike A P e f) {s s' t : S} {a : α} (hst : A s t) (hruns : e.Runs s a s') :
    ∃ b t', f.Runs t b t' ∧ P a b ∧ A s' t' := by
  obtain ⟨hends, hagree⟩ := h s t hst
  obtain ⟨ha, rfl⟩ := hruns
  rw [ha] at hends
  cases hb : (f t).1 with
  | error y => rw [hb] at hends; cases hends
  | ok b =>
    rw [hb] at hends
    cases hends with
    | ok hab => exact ⟨b, _, ⟨hb, rfl⟩, hab, hagree⟩

end Alike

end ExceptT
