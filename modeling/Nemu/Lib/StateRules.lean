import Mathlib.Order.Defs.Unbundled
import Mathlib.Tactic.Common

/-!
# Rules for programs with a state and errors

A program is an `EStateM ε σ α`: it runs in a state, returns a value or stops with an error,
and keeps its state in both cases.  Four judgements are used:

- `x s = .ok a s'`    : the run itself; `bind_ok` and `bind_eq_ok` compose runs
- `Ensures x s Q`     : the run from `s` returns, and its value and state satisfy `Q`
- `Fails x s e`       : the run from `s` stops with the error `e`
- `Within R x`        : every run, returning or not, ends in a state related by `R` to its start
-/

namespace StateRules

variable {ε σ α β : Type}

/-! ## Runs -/

/-- The state in which a run stops, normally or with an error. -/
def final : EStateM.Result ε σ α → σ
  | .ok _ s => s
  | .error _ s => s

@[simp] theorem final_ok (a : α) (s : σ) : final (.ok a s : EStateM.Result ε σ α) = s := rfl

@[simp] theorem final_error (e : ε) (s : σ) :
    final (.error e s : EStateM.Result ε σ α) = s := rfl

@[simp] theorem pure_run (a : α) (s : σ) : (pure a : EStateM ε σ α) s = .ok a s := rfl

@[simp] theorem throw_run (e : ε) (s : σ) : (throw e : EStateM ε σ α) s = .error e s := rfl

@[simp] theorem get_run (s : σ) : (get : EStateM ε σ σ) s = .ok s s := rfl

@[simp] theorem set_run (s s' : σ) : (set s' : EStateM ε σ PUnit) s = .ok ⟨⟩ s' := rfl

@[simp] theorem modify_run (f : σ → σ) (s : σ) :
    (modify f : EStateM ε σ PUnit) s = .ok ⟨⟩ (f s) := rfl

theorem bind_ok {x : EStateM ε σ α} {f : α → EStateM ε σ β} {s s' : σ} {a : α}
    (h : x s = .ok a s') : (x >>= f) s = f a s' := by
  change EStateM.bind x f s = f a s'
  simp [EStateM.bind, h]

theorem bind_error {x : EStateM ε σ α} {f : α → EStateM ε σ β} {s s' : σ} {e : ε}
    (h : x s = .error e s') : (x >>= f) s = .error e s' := by
  change EStateM.bind x f s = .error e s'
  simp [EStateM.bind, h]

/-- Only the run of the first part matters for what follows. -/
theorem bind_run_congr {x y : EStateM ε σ α} {s s' : σ} (h : x s = y s')
    (f : α → EStateM ε σ β) : (x >>= f) s = (y >>= f) s' := by
  change EStateM.bind x f s = EStateM.bind y f s'
  simp only [EStateM.bind, h]

/-- A sequence returns exactly when its parts return one after the other. -/
theorem bind_eq_ok {x : EStateM ε σ α} {f : α → EStateM ε σ β} {s s'' : σ} {b : β} :
    (x >>= f) s = .ok b s'' ↔ ∃ a s', x s = .ok a s' ∧ f a s' = .ok b s'' := by
  constructor
  · intro h
    cases hx : x s with
    | ok a s' =>
        refine ⟨a, s', rfl, ?_⟩
        rwa [bind_ok hx] at h
    | error e s' =>
        rw [bind_error hx] at h
        cases h
  · rintro ⟨a, s', hx, hf⟩
    rw [bind_ok hx]
    exact hf

/-- What follows without touching the state does not matter to where a run ends. -/
theorem final_bind_pure (x : EStateM ε σ α) (f : α → β) (s : σ) :
    final ((x >>= fun a => pure (f a)) s) = final (x s) := by
  cases hx : x s with
  | ok a s' =>
      rw [bind_ok hx]
      rfl
  | error e s' =>
      rw [bind_error hx]
      rfl

/-! ## Total correctness -/

/-- The run of `x` from `s` returns, and its value and final state satisfy `Q`. -/
def Ensures (x : EStateM ε σ α) (s : σ) (Q : α → σ → Prop) : Prop :=
  ∃ a s', x s = .ok a s' ∧ Q a s'

theorem Ensures.of_ok {x : EStateM ε σ α} {s s' : σ} {a : α} {Q : α → σ → Prop}
    (h : x s = .ok a s') (hQ : Q a s') : Ensures x s Q :=
  ⟨a, s', h, hQ⟩

theorem Ensures.mono {x : EStateM ε σ α} {s : σ} {P Q : α → σ → Prop}
    (h : Ensures x s P) (hPQ : ∀ a s', P a s' → Q a s') : Ensures x s Q := by
  rcases h with ⟨a, s', hx, hP⟩
  exact ⟨a, s', hx, hPQ a s' hP⟩

theorem Ensures.bind {x : EStateM ε σ α} {f : α → EStateM ε σ β} {s : σ}
    {P : α → σ → Prop} {Q : β → σ → Prop}
    (hx : Ensures x s P) (hf : ∀ a s', P a s' → Ensures (f a) s' Q) :
    Ensures (x >>= f) s Q := by
  rcases hx with ⟨a, s', hrun, hP⟩
  rcases hf a s' hP with ⟨b, s'', hrun', hQ⟩
  refine ⟨b, s'', ?_, hQ⟩
  rw [bind_ok hrun]
  exact hrun'

/-- A first part whose run is known. -/
theorem Ensures.step {x : EStateM ε σ α} {f : α → EStateM ε σ β} {s s' : σ} {a : α}
    {Q : β → σ → Prop} (hx : x s = .ok a s') (hf : Ensures (f a) s' Q) :
    Ensures (x >>= f) s Q := by
  rcases hf with ⟨b, s'', hrun, hQ⟩
  exact ⟨b, s'', (bind_ok hx).trans hrun, hQ⟩

/-! ## Errors -/

/-- The run of `x` from `s` stops with the error `e`. -/
def Fails (x : EStateM ε σ α) (s : σ) (e : ε) : Prop := ∃ s', x s = .error e s'

section Fails

variable {s : σ} {e : ε}

theorem Fails.bind {x : EStateM ε σ α} (h : Fails x s e) (f : α → EStateM ε σ β) :
    Fails (x >>= f) s e := by
  rcases h with ⟨s', hx⟩
  exact ⟨s', bind_error hx⟩

/-- The error comes after a first part whose run is known. -/
theorem Fails.step {x : EStateM ε σ α} {f : α → EStateM ε σ β} {a : α} {s' : σ}
    (hx : x s = .ok a s') (hf : Fails (f a) s' e) : Fails (x >>= f) s e := by
  rcases hf with ⟨s'', hrun⟩
  exact ⟨s'', (bind_ok hx).trans hrun⟩

/-- The run of `x` from `s` stops with the error `e` if `c` holds, and returns if it does not. -/
structure FailsExactly (x : EStateM ε σ α) (s : σ) (e : ε) (c : Prop) : Prop where
  fails : c → Fails x s e
  returns : ¬ c → Ensures x s fun _ _ => True

theorem FailsExactly.of_iff {x : EStateM ε σ α} {c c' : Prop} (h : FailsExactly x s e c)
    (hc : c ↔ c') : FailsExactly x s e c' where
  fails hc' := h.fails (hc.2 hc')
  returns hc' := h.returns fun hyes => hc' (hc.1 hyes)

end Fails

/-! ## What a run can change -/

/-- Every run of `x` ends in a state that `R` relates to its start. -/
def Within (R : σ → σ → Prop) (x : EStateM ε σ α) : Prop :=
  ∀ s, R s (final (x s))

section Within

variable {R : σ → σ → Prop}

theorem Within.ok {x : EStateM ε σ α} {s s' : σ} {a : α} (hx : Within R x)
    (h : x s = .ok a s') : R s s' := by
  have hs := hx s
  rwa [h] at hs

theorem Within.modify {f : σ → σ} (hf : ∀ s, R s (f s)) :
    Within R (modify f : EStateM ε σ PUnit) :=
  fun s => hf s

theorem Within.ite {c : Prop} [Decidable c] {x y : EStateM ε σ α}
    (hx : Within R x) (hy : Within R y) : Within R (if c then x else y) := by
  by_cases h : c
  · simpa [h] using hx
  · simpa [h] using hy

-- the relations that are followed through a whole program are preorders
variable [IsPreorder σ R]

theorem Within.pure (a : α) : Within R (Pure.pure a : EStateM ε σ α) :=
  fun s => refl_of R s

theorem Within.throw (e : ε) : Within R (MonadExcept.throw e : EStateM ε σ α) :=
  fun s => refl_of R s

theorem Within.get : Within R (MonadState.get : EStateM ε σ σ) :=
  fun s => refl_of R s

/-- The second part has to be followed only from values that the first one returns. -/
theorem Within.bind_of_ok {x : EStateM ε σ α} {f : α → EStateM ε σ β} (hx : Within R x)
    (hf : ∀ a s s', x s = .ok a s' → Within R (f a)) : Within R (x >>= f) := by
  intro s
  cases hrun : x s with
  | ok a s' =>
      rw [bind_ok hrun]
      exact trans_of R (hx.ok hrun) (hf a s s' hrun s')
  | error e s' =>
      rw [bind_error hrun]
      have hs := hx s
      rwa [hrun] at hs

theorem Within.bind {x : EStateM ε σ α} {f : α → EStateM ε σ β}
    (hx : Within R x) (hf : ∀ a, Within R (f a)) : Within R (x >>= f) :=
  hx.bind_of_ok fun a _ _ _ => hf a

end Within

end StateRules
