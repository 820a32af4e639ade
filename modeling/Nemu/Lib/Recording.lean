import Nemu.Lib.StateRules

/-!
# Programs that record what they do

A recording program runs beside a log of events and can run on fuel.  `Logs P x y` says that `x` is
the plain program `y` apart from the log: it gives the value, the error and the state of `y`, it
never runs out of fuel, and the list of the events it adds satisfies `P`.  `Records P` is the case
that every single event satisfies `P`, and `AtMost n` that there are no more than `n`.
-/

namespace StateRules

variable {ε σ τ α β : Type}

/-- A state beside the events so far. -/
structure Recording (σ τ : Type) where
  state : σ
  events : List τ

/-- A program that records events.  Its error `none` is the end of the fuel. -/
abbrev Recorder (ε σ τ : Type) := EStateM (Option ε) (Recording σ τ)

def emit (e : τ) : Recorder ε σ τ PUnit :=
  modify fun s => { s with events := s.events ++ [e] }

@[simp] theorem emit_run (e : τ) (s : Recording σ τ) :
    (emit e : Recorder ε σ τ PUnit) s = .ok ⟨⟩ { s with events := s.events ++ [e] } := rfl

def outOfFuel : Recorder ε σ τ α := throw none

/-- The outcome of a plain run beside a log. -/
def withEvents (events : List τ) :
    EStateM.Result ε σ α → EStateM.Result (Option ε) (Recording σ τ) α
  | .ok a s => .ok a { state := s, events }
  | .error e s => .error (some e) { state := s, events }

/-- A plain program as one that records nothing. -/
def unrecorded (x : EStateM ε σ α) : Recorder ε σ τ α :=
  fun s => withEvents s.events (x s.state)

section Unrecorded

variable {x : EStateM ε σ α} {s : Recording σ τ} {s' : σ}

theorem unrecorded_of_ok {a : α} (h : x s.state = .ok a s') :
    unrecorded x s = .ok a { s with state := s' } := by
  rw [unrecorded, h]
  rfl

theorem unrecorded_of_error {e : ε} (h : x s.state = .error e s') :
    unrecorded x s = .error (some e) { s with state := s' } := by
  rw [unrecorded, h]
  rfl

end Unrecorded

theorem final_withEvents (events : List τ) (r : EStateM.Result ε σ α) :
    final (withEvents events r) = { state := final r, events } := by
  cases r <;> rfl

theorem withEvents_ne_outOfFuel (events : List τ) (r : EStateM.Result ε σ α)
    (s : Recording σ τ) : withEvents events r ≠ .error none s := by
  intro h
  cases r <;> cases h

/-! ## The judgement -/

/-- Every run of `x` is the run of `y` with events added to the log that together satisfy `P`. -/
def Logs (P : List τ → Prop) (x : Recorder ε σ τ α) (y : EStateM ε σ α) : Prop :=
  ∀ s, ∃ events, P events ∧ x s = withEvents (s.events ++ events) (y s.state)

section Logs

variable {P Q R : List τ → Prop}

theorem Logs.mono {x : Recorder ε σ τ α} {y : EStateM ε σ α} (hx : Logs P x y)
    (hPQ : ∀ l, P l → Q l) : Logs Q x y := by
  intro s
  rcases hx s with ⟨events, hP, hrun⟩
  exact ⟨events, hPQ events hP, hrun⟩

theorem Logs.unrecorded (x : EStateM ε σ α) (hP : P []) : Logs P (unrecorded x) x := by
  intro s
  refine ⟨[], hP, ?_⟩
  rw [List.append_nil]
  rfl

/-- Where a run ends. -/
theorem Logs.final_eq {x : Recorder ε σ τ α} {y : EStateM ε σ α} (hx : Logs P x y)
    (s : Recording σ τ) :
    ∃ events, P events ∧
      final (x s) = { state := final (y s.state), events := s.events ++ events } := by
  rcases hx s with ⟨events, hP, hrun⟩
  exact ⟨events, hP, by rw [hrun, final_withEvents]⟩

/-- The second part does not run if the first one fails. -/
theorem Logs.bind {x : Recorder ε σ τ α} {y : EStateM ε σ α} {f : α → Recorder ε σ τ β}
    {g : α → EStateM ε σ β} (hx : Logs P x y) (hf : ∀ a, Logs Q (f a) (g a))
    (hfirst : ∀ l, P l → R l) (hboth : ∀ l m, P l → Q m → R (l ++ m)) :
    Logs R (x >>= f) (y >>= g) := by
  intro s
  rcases hx s with ⟨first, hP, hrun⟩
  cases hy : y s.state with
  | ok a s' =>
      rw [hy] at hrun
      rcases hf a { state := s', events := s.events ++ first } with ⟨second, hQ, hrun'⟩
      refine ⟨first ++ second, hboth first second hP hQ, ?_⟩
      rw [bind_ok hrun, bind_ok hy, hrun', List.append_assoc]
  | error e s' =>
      rw [hy] at hrun
      refine ⟨first, hfirst first hP, ?_⟩
      rw [bind_error hrun, bind_error hy]
      rfl

/-- A first part that only finds out a value is not there in the plain program. -/
theorem Logs.bind_value {x : Recorder ε σ τ α} {a : α} {f : α → Recorder ε σ τ β}
    {y : EStateM ε σ β} (hx : Logs P x (Pure.pure a)) (hf : Logs Q (f a) y)
    (hboth : ∀ l m, P l → Q m → R (l ++ m)) : Logs R (x >>= f) y := by
  intro s
  rcases hx s with ⟨first, hP, hrun⟩
  rcases hf { state := s.state, events := s.events ++ first } with ⟨second, hQ, hrun'⟩
  refine ⟨first ++ second, hboth first second hP hQ, ?_⟩
  rw [bind_ok hrun, hrun', List.append_assoc]

/-- An event before a program. -/
theorem Logs.emit {e : τ} {x : Recorder ε σ τ α} {y : EStateM ε σ α} (hx : Logs Q x y)
    (hcons : ∀ l, Q l → R (e :: l)) : Logs R (emit e >>= fun _ => x) y := by
  intro s
  rcases hx { s with events := s.events ++ [e] } with ⟨events, hQ, hrun⟩
  refine ⟨e :: events, hcons events hQ, ?_⟩
  rw [bind_ok (emit_run e s), hrun, List.append_assoc]
  rfl

theorem Logs.ite {c : Prop} [Decidable c] {x x' : Recorder ε σ τ α} {y y' : EStateM ε σ α}
    (hx : c → Logs P x y) (hx' : ¬ c → Logs P x' y') :
    Logs P (if c then x else x') (if c then y else y') := by
  by_cases h : c
  · simpa [h] using hx h
  · simpa [h] using hx' h

end Logs

/-! ## Events of one kind -/

/-- Every event that is added satisfies `P`. -/
def Records (P : τ → Prop) (x : Recorder ε σ τ α) (y : EStateM ε σ α) : Prop :=
  Logs (fun l => ∀ e ∈ l, P e) x y

section Records

variable {P Q : τ → Prop}

theorem Records.mono {x : Recorder ε σ τ α} {y : EStateM ε σ α} (hx : Records P x y)
    (hPQ : ∀ e, P e → Q e) : Records Q x y :=
  Logs.mono hx fun _ h e he => hPQ e (h e he)

theorem Records.unrecorded (x : EStateM ε σ α) : Records P (unrecorded x) x :=
  Logs.unrecorded x (by simp)

theorem Records.pure (a : α) :
    Records P (Pure.pure a : Recorder ε σ τ α) (Pure.pure a : EStateM ε σ α) :=
  Records.unrecorded (Pure.pure a)

theorem Records.bind {x : Recorder ε σ τ α} {y : EStateM ε σ α} {f : α → Recorder ε σ τ β}
    {g : α → EStateM ε σ β} (hx : Records P x y) (hf : ∀ a, Records P (f a) (g a)) :
    Records P (x >>= f) (y >>= g) :=
  Logs.bind hx hf (fun _ h => h) fun _ _ h h' => List.forall_mem_append.2 ⟨h, h'⟩

theorem Records.bind_value {x : Recorder ε σ τ α} {a : α} {f : α → Recorder ε σ τ β}
    {y : EStateM ε σ β} (hx : Records P x (Pure.pure a)) (hf : Records P (f a) y) :
    Records P (x >>= f) y :=
  Logs.bind_value hx hf fun _ _ h h' => List.forall_mem_append.2 ⟨h, h'⟩

theorem Records.emit {e : τ} {x : Recorder ε σ τ α} {y : EStateM ε σ α} (hx : Records P x y)
    (he : P e) : Records P (emit e >>= fun _ => x) y :=
  Logs.emit hx fun _ h => List.forall_mem_cons.2 ⟨he, h⟩

theorem Records.ite {c : Prop} [Decidable c] {x x' : Recorder ε σ τ α} {y y' : EStateM ε σ α}
    (hx : c → Records P x y) (hx' : ¬ c → Records P x' y') :
    Records P (if c then x else x') (if c then y else y') :=
  Logs.ite hx hx'

end Records

/-! ## Numbers of events -/

/-- At most `n` events are added. -/
def AtMost (n : Nat) (x : Recorder ε σ τ α) (y : EStateM ε σ α) : Prop :=
  Logs (fun l => l.length ≤ n) x y

section AtMost

variable {m n : Nat}

theorem AtMost.mono {x : Recorder ε σ τ α} {y : EStateM ε σ α} (hx : AtMost m x y)
    (hmn : m ≤ n) : AtMost n x y :=
  Logs.mono hx fun _ h => Nat.le_trans h hmn

theorem AtMost.unrecorded (x : EStateM ε σ α) : AtMost (τ := τ) n (unrecorded x) x :=
  Logs.unrecorded x (Nat.zero_le n)

theorem AtMost.bind {x : Recorder ε σ τ α} {y : EStateM ε σ α} {f : α → Recorder ε σ τ β}
    {g : α → EStateM ε σ β} (hx : AtMost m x y) (hf : ∀ a, AtMost n (f a) (g a)) :
    AtMost (m + n) (x >>= f) (y >>= g) := by
  refine Logs.bind hx hf (fun l h => Nat.le_trans h (Nat.le_add_right m n)) fun l k hl hk => ?_
  rw [List.length_append]
  exact Nat.add_le_add hl hk

theorem AtMost.emit {e : τ} {x : Recorder ε σ τ α} {y : EStateM ε σ α} (hx : AtMost n x y) :
    AtMost (n + 1) (emit e >>= fun _ => x) y :=
  Logs.emit hx fun _ h => Nat.succ_le_succ h

theorem AtMost.ite {c : Prop} [Decidable c] {x x' : Recorder ε σ τ α} {y y' : EStateM ε σ α}
    (hx : c → AtMost n x y) (hx' : ¬ c → AtMost n x' y') :
    AtMost n (if c then x else x') (if c then y else y') :=
  Logs.ite hx hx'

theorem AtMost.length_le {x : Recorder ε σ τ α} {y : EStateM ε σ α} (hx : AtMost n x y)
    {s s' : Recording σ τ} {a : α} (h : x s = .ok a s') :
    s'.events.length ≤ s.events.length + n := by
  rcases Logs.final_eq hx s with ⟨events, hlen, hfinal⟩
  rw [h, final_ok] at hfinal
  rw [hfinal, List.length_append]
  exact Nat.add_le_add_left hlen _

end AtMost

end StateRules
