import Nemu.Lib.Requests

/-!
# Runs of a specification and loops of a program

A specification is a relation between abstract states.  A program that simulates one step of it,
called in a loop, simulates its runs, as long as nothing leaves the loop; `iterate_halts` is the loop
that is left in the end.
-/

namespace Simulation

open StateRules

variable {ε σ τ α : Type}

/-! ## Runs -/

/-- A run of `n` steps. -/
inductive Run (step : τ → τ → Prop) : Nat → τ → τ → Prop
  | zero (t : τ) : Run step 0 t t
  | succ {n : Nat} {t t₁ t₂ : τ} (hstep : step t t₁) (hrest : Run step n t₁ t₂) :
      Run step (n + 1) t t₂

/-! ## Loops -/

/-- `x` called up to `n` times, until `go` is false behind a call. -/
def iterate (go : σ → Bool) (x : EStateM ε σ α) : Nat → EStateM ε σ Unit
  | 0 => pure ()
  | n + 1 => do
      let _ ← x
      if go (← get) then iterate go x n else pure ()

section Iterate

variable {go : σ → Bool} {x : EStateM ε σ α} {s s' : σ} {a : α}

theorem iterate_step (hx : x s = .ok a s') (hgo : go s' = true) (n : Nat) :
    iterate go x (n + 1) s = iterate go x n s' := by
  rw [iterate, bind_ok hx, bind_ok (get_run s'), if_pos hgo]

theorem iterate_stop (hx : x s = .ok a s') (hgo : go s' = false) (n : Nat) :
    iterate go x (n + 1) s = .ok ⟨⟩ s' := by
  rw [iterate, bind_ok hx, bind_ok (get_run s'), if_neg (by rw [hgo]; exact Bool.false_ne_true)]
  rfl

end Iterate

/-- Loops whose bodies agree, and that are left at the same time. -/
theorem iterate_agrees {ρ β : Type} {R : σ → ρ → Prop} {go : σ → Bool} {go' : ρ → Bool}
    {x : EStateM ε σ β} {y : EStateM ε ρ β}
    (hx : ∀ s t, R s t → Requests.Agrees R R (x s) (y t)) (hgo : ∀ s t, R s t → go s = go' t)
    (n : Nat) {s : σ} {t : ρ} (h : R s t) :
    Requests.Agrees R R (iterate go x n s) (iterate go' y n t) := by
  induction n generalizing s t with
  | zero => exact .ok h
  | succ n ih =>
      refine (hx s t h).bind fun b s' t' h' => ?_
      rw [bind_ok (get_run s'), bind_ok (get_run t'), hgo s' t' h']
      split
      · exact ih h'
      · exact .ok h'

/-! ## Simulation -/

/-- From states with `Inv`, a step of the specification is a call of `x` that does not leave the
loop. -/
structure Simulates (Inv : σ → Prop) (view : σ → τ) (go : σ → Bool) (x : EStateM ε σ α)
    (step : τ → τ → Prop) : Prop where
  call : ∀ s t, Inv s → step (view s) t →
    ∃ a s', x s = .ok a s' ∧ Inv s' ∧ go s' = true ∧ view s' = t

section Simulates

variable {Inv : σ → Prop} {view : σ → τ} {go : σ → Bool} {x : EStateM ε σ α}
variable {step : τ → τ → Prop}

/-- A run of the specification is as many turns of the loop, whatever comes behind them. -/
theorem Simulates.turns (h : Simulates Inv view go x step) {k : Nat} {t t' : τ}
    (hrun : Run step k t t') :
    ∀ {s : σ}, Inv s → view s = t →
      ∃ s', Inv s' ∧ view s' = t' ∧ ∀ n, iterate go x (k + n) s = iterate go x n s' := by
  induction hrun with
  | zero t =>
      intro s hs hview
      exact ⟨s, hs, hview, fun n => by rw [Nat.zero_add]⟩
  | @succ k t t₁ t₂ hstep _ ih =>
      intro s hs hview
      subst hview
      rcases h.call s t₁ hs hstep with ⟨a, s₁, hx, hs₁, hgo, hview₁⟩
      rcases ih hs₁ hview₁ with ⟨s', hs', hview', hiterate⟩
      refine ⟨s', hs', hview', fun n => ?_⟩
      rw [Nat.succ_add, iterate_step hx hgo]
      exact hiterate n

/-- A run, and a call that leaves the loop. -/
theorem Simulates.iterate_halts (h : Simulates Inv view go x step) {k : Nat} {s : σ} {t' : τ}
    (hrun : Run step k (view s) t') (hs : Inv s) {Q : σ → Prop}
    (hlast : ∀ s', Inv s' → view s' = t' → ∃ a s'', x s' = .ok a s'' ∧ go s'' = false ∧ Q s'')
    {n : Nat} (hn : k < n) : ∃ s'', iterate go x n s = .ok ⟨⟩ s'' ∧ Q s'' := by
  rcases h.turns hrun hs rfl with ⟨s', hs', hview', hiterate⟩
  rcases hlast s' hs' hview' with ⟨a, s'', hx, hgo, hQ⟩
  rcases Nat.exists_eq_add_of_lt hn with ⟨m, rfl⟩
  exact ⟨s'', (hiterate (m + 1)).trans (iterate_stop hx hgo m), hQ⟩

end Simulates

end Simulation
