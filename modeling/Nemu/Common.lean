import Mathlib.Tactic.Common
import Nemu.Lib.StateRules

/-!
# Words and faults

The base types of `include/common.h`.  `rtlreg_t`, `paddr_t` and `vaddr_t` are all `uint32_t`.

A C run that does not return normally ends in a `Fault`: a failed `assert`, `Assert`, `panic` or
`TODO()`, the dereference of a null pointer, a write outside a fixed-size array, an integer
division that the host's processor refuses, or a recursion or loop that does not end.
-/

namespace Nemu

abbrev Byte := BitVec 8

abbrev Word := BitVec 32

inductive Fault
  | abort
  | null
  | bounds
  | divide
  | diverge
  /-- A value that nothing has written is read. -/
  | unwritten
  deriving DecidableEq, Repr

/-- `assert`, `Assert` and, with `false`, `panic` and `TODO()`. -/
def cAssert {σ : Type} (cond : Bool) : EStateM Fault σ PUnit :=
  if cond then pure ⟨⟩ else throw .abort

@[simp] theorem cAssert_true_run {σ : Type} (s : σ) :
    (cAssert true : EStateM Fault σ PUnit) s = .ok ⟨⟩ s := rfl

theorem cAssert_eq_ok {σ : Type} {c : Bool} {s s' : σ} {a : PUnit} :
    (cAssert c : EStateM Fault σ PUnit) s = .ok a s' ↔ c = true ∧ s' = s := by
  cases c
  · simp [cAssert]
  · simp [cAssert, eq_comm]

theorem cAssert_within {σ : Type} {R : σ → σ → Prop} [IsPreorder σ R] (c : Bool) :
    StateRules.Within R (cAssert c : EStateM Fault σ PUnit) := by
  unfold cAssert
  exact StateRules.Within.ite (StateRules.Within.pure _) (StateRules.Within.throw _)

/-- `memcpy` to an index of an array. -/
def memcpy (f : Nat → Byte) (dest : Nat) (src : List Byte) : Nat → Byte := fun i =>
  if dest ≤ i then src.getD (i - dest) (f i) else f i

theorem memcpy_get {f : Nat → Byte} {src : List Byte} {i : Nat} (dest : Nat) (h : i < src.length) :
    memcpy f dest src (dest + i) = src[i] := by
  rw [memcpy, if_pos (Nat.le_add_right dest i), Nat.add_sub_cancel_left,
    List.getD_eq_getElem?_getD, List.getElem?_eq_getElem h, Option.getD_some]

end Nemu
