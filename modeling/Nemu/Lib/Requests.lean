import Nemu.Lib.StateRules

/-!
# Programs that make requests

A client computes and makes requests; what a request does is left to an interpretation, which has a
state of its own.  `run_agrees` carries two interpretations that agree on single requests over to
every client: what a service looks like from outside can then be proved without its transport.
-/

namespace Requests

open StateRules

variable {Q A ε σ τ α β : Type}

inductive Client (Q A ε : Type) (α : Type) : Type
  | ret (a : α)
  | fail (e : ε)
  | ask (q : Q) (next : A → Client Q A ε α)

namespace Client

def bind (c : Client Q A ε α) (f : α → Client Q A ε β) : Client Q A ε β :=
  match c with
  | ret a => f a
  | fail e => fail e
  | ask q next => ask q fun a => (next a).bind f

/-- The client over an interpretation. -/
def run (service : Q → EStateM ε σ A) : Client Q A ε α → EStateM ε σ α
  | ret a => pure a
  | fail e => throw e
  | ask q next => service q >>= fun a => (next a).run service

theorem run_bind (service : Q → EStateM ε σ A) (c : Client Q A ε α) (f : α → Client Q A ε β) :
    (c.bind f).run service = c.run service >>= fun a => (f a).run service := by
  induction c with
  | ret a => rfl
  | fail e => rfl
  | ask q next ih =>
      calc (service q >>= fun a => ((next a).bind f).run service)
          = service q >>= fun a => (next a).run service >>= fun b => (f b).run service := by
            simp only [ih]
        _ = (service q >>= fun a => (next a).run service) >>= fun b => (f b).run service := by
            rw [bind_assoc]

end Client

/-! ## Agreement -/

/-- The same value, in states that `R` relates, or the same error, in states that `E` relates. -/
inductive Agrees (R E : σ → τ → Prop) : EStateM.Result ε σ α → EStateM.Result ε τ α → Prop
  | ok {a : α} {s : σ} {t : τ} (h : R s t) : Agrees R E (.ok a s) (.ok a t)
  | error {e : ε} {s : σ} {t : τ} (h : E s t) : Agrees R E (.error e s) (.error e t)

theorem Agrees.bind {R E : σ → τ → Prop} {x : EStateM ε σ α} {y : EStateM ε τ α}
    {f : α → EStateM ε σ β} {g : α → EStateM ε τ β} {s : σ} {t : τ} (hx : Agrees R E (x s) (y t))
    (hf : ∀ a s' t', R s' t' → Agrees R E (f a s') (g a t')) :
    Agrees R E ((x >>= f) s) ((y >>= g) t) := by
  generalize hr : x s = r at hx
  generalize hr' : y t = r' at hx
  cases hx with
  | ok h =>
      rw [bind_ok hr, bind_ok hr']
      exact hf _ _ _ h
  | error h =>
      rw [bind_error hr, bind_error hr']
      exact .error h

theorem Agrees.exists_ok {R E : σ → τ → Prop} {r : EStateM.Result ε σ α} {a : α} {t : τ}
    (h : Agrees R E r (.ok a t)) : ∃ s, r = .ok a s ∧ R s t := by
  cases h with
  | ok h => exact ⟨_, rfl, h⟩

/-- Two services that agree on every request agree on every client. -/
theorem Client.run_agrees {R E : σ → τ → Prop} {service : Q → EStateM ε σ A}
    {service' : Q → EStateM ε τ A} (hE : ∀ s t, R s t → E s t)
    (h : ∀ q s t, R s t → Agrees R E (service q s) (service' q t))
    (c : Client Q A ε α) {s : σ} {t : τ} (hst : R s t) :
    Agrees R E (c.run service s) (c.run service' t) := by
  induction c generalizing s t with
  | ret a => exact .ok hst
  | fail e => exact .error (hE s t hst)
  | ask q next ih => exact (h q s t hst).bind fun a s' t' h' => ih a h'

end Requests
