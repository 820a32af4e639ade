import Nemu.Expr.Stack

/-!
# Sequences of pushes and pops

Any sequence of `Push` and `Pop` on the stack of `src/monitor/debug/expr.c`, beside the same
sequence on an unbounded last-in first-out stack.  They agree as long as the block has not filled
up: `Push` compares before it moves `top`, and so stores behind the block before it lets it grow.
-/

namespace Nemu

/-! ## Operations -/

inductive StackOp (α : Type) where
  | push (e : α)
  | pop
  deriving DecidableEq, Repr

namespace StackOp

variable {α : Type}

/-- What an operation leaves of a last-in first-out stack, the top being the head. -/
def after (L : List α) : StackOp α → List α
  | push e => e :: L
  | pop => L.tail

/-- What it reports: the element popped, or `none` for `ERROR`. -/
def reports (L : List α) : StackOp α → List (Option α)
  | push _ => []
  | pop => [L.head?]

end StackOp

section Runs

variable {α : Type}

def lifoAfter (ops : List (StackOp α)) (L : List α) : List α := ops.foldl StackOp.after L

def lifoReports : List (StackOp α) → List α → List (Option α)
  | [], _ => []
  | op :: ops, L => op.reports L ++ lifoReports ops (op.after L)

namespace Stack

/-- One operation of the code's stack. -/
def step (S : Stack α) : StackOp α → Except Fault (List (Option α) × Stack α)
  | .push e => do
      return ([], ← S.push e)
  | .pop => do
      match ← S.pop with
      | none => return ([none], S)
      | some (e, S) => return ([some e], S)

/-- Operations one after the other, up to the first access outside the block. -/
def run (S : Stack α) : List (StackOp α) → Except Fault (List (Option α) × Stack α)
  | [] => return ([], S)
  | op :: ops => do
      let (reports, S) ← S.step op
      let (rest, S) ← S.run ops
      return (reports ++ rest, S)

end Stack

/-! ## One operation -/

section Step

variable {S : Stack α} {L : List α}

theorem Stack.Holds.step (h : Holds S L) (op : StackOp α)
    (hfit : (op.after L).length < stackInitSize) :
    ∃ S', S.step op = .ok (op.reports L, S') ∧ Holds S' (op.after L) := by
  cases op with
  | push e =>
      rcases (h.push e).1 hfit with ⟨S', hpush, hS'⟩
      refine ⟨S', ?_, hS'⟩
      rw [Stack.step, hpush]
      rfl
  | pop =>
      cases L with
      | nil =>
          refine ⟨S, ?_, h⟩
          rw [Stack.step, h.pop_nil]
          rfl
      | cons e L =>
          rcases h.pop_cons with ⟨S', hpop, hS'⟩
          refine ⟨S', ?_, hS'⟩
          rw [Stack.step, hpop]
          rfl

/-- The only operation that runs out of the block is the push that fills it. -/
theorem Stack.Holds.step_bounds (h : Holds S L) (op : StackOp α)
    (hfull : ¬ (op.after L).length < stackInitSize) : S.step op = .error .bounds := by
  cases op with
  | push e =>
      have hpush := (h.push e).2 (Nat.not_lt.1 hfull)
      rw [Stack.step, hpush]
      rfl
  | pop =>
      have hle : L.tail.length ≤ L.length := by simp
      exact absurd (Nat.lt_of_le_of_lt hle h.fits) hfull

end Step

/-! ## All operations -/

/-- The unbounded stack has fewer than 100 elements at every moment. -/
def StaysBelow (ops : List (StackOp α)) (L : List α) : Prop :=
  ∀ n, (lifoAfter (ops.take n) L).length < stackInitSize

theorem staysBelow_cons {op : StackOp α} {ops : List (StackOp α)} {L : List α}
    (hL : L.length < stackInitSize) :
    StaysBelow (op :: ops) L ↔ StaysBelow ops (op.after L) := by
  constructor
  · intro h n
    exact h (n + 1)
  · intro h n
    cases n with
    | zero => exact hL
    | succ n => exact h n

/-- By induction on the operations. -/
theorem Stack.Holds.run {S : Stack α} {L : List α} (h : Holds S L) (ops : List (StackOp α)) :
    (StaysBelow ops L → ∃ S', S.run ops = .ok (lifoReports ops L, S') ∧
        Holds S' (lifoAfter ops L)) ∧
      (¬ StaysBelow ops L → S.run ops = .error .bounds) := by
  induction ops generalizing S L with
  | nil =>
      refine ⟨fun _ => ⟨S, rfl, h⟩, fun hnot => absurd (fun n => ?_) hnot⟩
      rw [List.take_nil]
      exact h.fits
  | cons op ops ih =>
      rw [staysBelow_cons h.fits]
      by_cases hfit : (op.after L).length < stackInitSize
      · rcases h.step op hfit with ⟨S₁, hstep, h₁⟩
        rw [Stack.run, hstep]
        refine ⟨fun hbelow => ?_, fun hnot => ?_⟩
        · rcases (ih h₁).1 hbelow with ⟨S', hrun, h'⟩
          refine ⟨S', ?_, h'⟩
          change (S₁.run ops >>= fun r => pure (op.reports L ++ r.1, r.2)) = _
          rw [hrun]
          rfl
        · change (S₁.run ops >>= fun r => pure (op.reports L ++ r.1, r.2)) = _
          rw [(ih h₁).2 hnot]
          rfl
      · refine ⟨fun hbelow => absurd (hbelow 0) hfit, fun _ => ?_⟩
        rw [Stack.run, h.step_bounds op hfit]
        rfl

/-- From an initialised stack, no access lies outside the block and every pop reports what a last-in
first-out stack would, exactly as long as there are never 100 elements. -/
theorem stack_run_lifo_iff (block : Nat → α) (ops : List (StackOp α)) :
    (∃ S', (Stack.initStack block).run ops = .ok (lifoReports ops [], S')) ↔
      ∀ n, (lifoAfter (ops.take n) []).length < stackInitSize := by
  have hrun := (Stack.Holds.init block).run ops
  constructor
  · rintro ⟨S', hok⟩
    by_contra hnot
    rw [hrun.2 hnot] at hok
    cases hok
  · intro hbelow
    rcases hrun.1 hbelow with ⟨S', hok, -⟩
    exact ⟨S', hok⟩

/-- The hundredth element is stored behind the block. -/
theorem stack_run_out_of_block :
    ¬ ∀ ops : List (StackOp Nat), ∃ S',
      (Stack.initStack fun _ => 0).run ops = .ok (lifoReports ops [], S') := by
  intro h
  rcases h (List.replicate 100 (.push 1)) with ⟨S', hok⟩
  have hnot : ¬ StaysBelow (List.replicate 100 (.push 1)) [] := by
    intro hbelow
    exact absurd (hbelow 100) (by decide)
  rw [((Stack.Holds.init fun _ => 0).run _).2 hnot] at hok
  cases hok

end Runs

end Nemu
