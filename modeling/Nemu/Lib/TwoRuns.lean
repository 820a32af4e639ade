import Nemu.Lib.StateRules

/-!
# Rules for two runs

`Sim P x y Q` compares a run of `x` with a run of `y` that starts in a related state: if the first
returns, so does the second.  Most rules are about one program run twice with the same value.
-/

namespace StateRules

variable {ε σ α β γ δ : Type} {P R : σ → σ → Prop}

/-- From states that `P` relates: if `x` returns, so does `y`, and `Q` relates the values and the
states. -/
def Sim (P : σ → σ → Prop) (x : EStateM ε σ α) (y : EStateM ε σ β)
    (Q : α → β → σ → σ → Prop) : Prop :=
  ∀ s t a s', P s t → x s = .ok a s' → ∃ b t', y t = .ok b t' ∧ Q a b s' t'

/-- The values are equal, and `R` relates the states. -/
def Alike (R : σ → σ → Prop) (a b : α) (s t : σ) : Prop := b = a ∧ R s t

theorem Sim.bind {x : EStateM ε σ α} {y : EStateM ε σ β} {f : α → EStateM ε σ γ}
    {g : β → EStateM ε σ δ} {Q : α → β → σ → σ → Prop} {T : γ → δ → σ → σ → Prop}
    (hx : Sim P x y Q) (hf : ∀ a b, Sim (Q a b) (f a) (g b) T) :
    Sim P (x >>= f) (y >>= g) T := by
  intro s t c s'' hP hrun
  rcases bind_eq_ok.1 hrun with ⟨a, s', hx', hf'⟩
  rcases hx s t a s' hP hx' with ⟨b, t', hy, hQ⟩
  rcases hf a b s' t' c s'' hQ hf' with ⟨d, t'', hg, hT⟩
  exact ⟨d, t'', bind_eq_ok.2 ⟨b, t', hy, hg⟩, hT⟩

/-- The usual case: the first parts return the same value. -/
theorem Sim.andThen {x y : EStateM ε σ α} {f : α → EStateM ε σ γ} {g : α → EStateM ε σ δ}
    {T : γ → δ → σ → σ → Prop} (hx : Sim P x y (Alike R)) (hf : ∀ a, Sim R (f a) (g a) T) :
    Sim P (x >>= f) (y >>= g) T :=
  hx.bind fun a b s t c s' hQ hrun => by
    rcases hQ with ⟨rfl, hR⟩
    exact hf b s t c s' hR hrun

theorem Sim.mono {x : EStateM ε σ α} {y : EStateM ε σ β} {Q T : α → β → σ → σ → Prop}
    (hx : Sim P x y Q) (hQ : ∀ a b s t, Q a b s t → T a b s t) : Sim P x y T := by
  intro s t a s' hP hrun
  rcases hx s t a s' hP hrun with ⟨b, t', hy, h⟩
  exact ⟨b, t', hy, hQ a b s' t' h⟩

theorem Sim.alike_mono {x y : EStateM ε σ α} {R' : σ → σ → Prop} (hx : Sim P x y (Alike R))
    (h : ∀ s t, R s t → R' s t) : Sim P x y (Alike R') :=
  hx.mono fun _ _ s t hQ => ⟨hQ.1, h s t hQ.2⟩

theorem Sim.pure (a : α) :
    Sim P (Pure.pure a : EStateM ε σ α) (Pure.pure a : EStateM ε σ α) (Alike P) := by
  intro s t b s' hP hrun
  cases hrun
  exact ⟨a, t, rfl, rfl, hP⟩

/-- A program that fails is like any other. -/
theorem Sim.throw (e : ε) {y : EStateM ε σ β} {Q : α → β → σ → σ → Prop} :
    Sim P (MonadExcept.throw e : EStateM ε σ α) y Q := by
  intro s t a s' _ hrun
  cases hrun

/-- What two programs read may differ, as long as they go on alike. -/
theorem Sim.get {f g : σ → EStateM ε σ α} {Q : α → α → σ → σ → Prop}
    (h : ∀ s t, P s t → Sim P (f s) (g t) Q) :
    Sim P (MonadState.get >>= f) (MonadState.get >>= g) Q := by
  intro s t a s' hP hrun
  rw [bind_ok (get_run s)] at hrun
  rw [bind_ok (get_run t)]
  exact h s t hP s t a s' hP hrun

theorem Sim.modify {f g : σ → σ} (h : ∀ s t, P s t → R (f s) (g t)) :
    Sim P (modify f : EStateM ε σ PUnit) (modify g : EStateM ε σ PUnit) (Alike R) := by
  intro s t a s' hP hrun
  cases hrun
  exact ⟨⟨⟩, g t, rfl, rfl, h s t hP⟩

theorem Sim.ite {c : Prop} [Decidable c] {x x' : EStateM ε σ α} {y y' : EStateM ε σ β}
    {Q : α → β → σ → σ → Prop} (hx : Sim P x y Q) (hx' : Sim P x' y' Q) :
    Sim P (if c then x else x') (if c then y else y') Q := by
  by_cases h : c
  · rwa [if_pos h, if_pos h]
  · rwa [if_neg h, if_neg h]

end StateRules
