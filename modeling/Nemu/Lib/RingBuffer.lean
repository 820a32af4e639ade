import Mathlib.Data.Nat.ModEq
import Mathlib.Logic.Function.Basic
import Mathlib.Tactic.Common

/-!
# Ring buffers

A ring buffer of size `n` keeps a queue in an array, from the index `front` on and up to the index
`rear`, both modulo `n`.  It is empty when the two are equal, so that it holds at most `n - 1`
elements.  `RingBuffer.Holds n q l` says that the queue is `l`.
-/

structure RingBuffer (α : Type*) where
  cells : Nat → α
  front : Nat
  rear : Nat

namespace RingBuffer

variable {α : Type*} {n : Nat} {q : RingBuffer α} {l : List α} {a : α}

def push (n : Nat) (q : RingBuffer α) (a : α) : RingBuffer α :=
  { q with cells := Function.update q.cells q.rear a, rear := (q.rear + 1) % n }

def pop (n : Nat) (q : RingBuffer α) : RingBuffer α :=
  { q with front := (q.front + 1) % n }

structure Holds (n : Nat) (q : RingBuffer α) (l : List α) : Prop where
  front : q.front < n
  length : l.length < n
  rear : q.rear = (q.front + l.length) % n
  cells : ∀ (i : Nat) (h : i < l.length), q.cells ((q.front + i) % n) = l[i]

/-- Indices less than one round apart do not coincide. -/
theorem add_mod_inj {f i j : Nat} (hi : i < n) (hj : j < n) (h : (f + i) % n = (f + j) % n) :
    i = j := by
  have hmod := Nat.ModEq.add_left_cancel' f (show Nat.ModEq n (f + i) (f + j) from h)
  exact Nat.ModEq.eq_of_lt_of_lt hmod hi hj

theorem holds_nil (hn : 0 < n) (cells : Nat → α) : (RingBuffer.mk cells 0 0).Holds n [] where
  front := hn
  length := hn
  rear := (Nat.zero_mod n).symm
  cells i h := absurd h (Nat.not_lt_zero i)

theorem Holds.isEmpty_iff (h : q.Holds n l) : q.front = q.rear ↔ l = [] := by
  have hfront : q.front = (q.front + 0) % n := (Nat.mod_eq_of_lt h.front).symm
  constructor
  · intro heq
    rw [h.rear] at heq
    -- less than one round lies between the two indices
    have hzero := add_mod_inj (Nat.zero_lt_of_lt h.length) h.length (hfront.symm.trans heq)
    exact List.length_eq_zero_iff.1 hzero.symm
  · rintro rfl
    rw [h.rear, List.length_nil, ← hfront]

/-- One more element brings the indices together exactly when it takes the last free cell. -/
theorem Holds.full_iff (h : q.Holds n l) :
    (q.push n a).rear = (q.push n a).front ↔ l.length + 1 = n := by
  have hrear : (q.push n a).rear = (q.front + (l.length + 1)) % n := by
    change (q.rear + 1) % n = _
    rw [h.rear, Nat.mod_add_mod, Nat.add_assoc]
  have hfront : (q.push n a).front = (q.front + 0) % n := (Nat.mod_eq_of_lt h.front).symm
  rw [hrear, hfront]
  constructor
  · intro heq
    by_contra hne
    -- otherwise the indices would still be less than one round apart
    have hlt : l.length + 1 < n := Nat.lt_of_le_of_ne h.length hne
    exact absurd (add_mod_inj hlt (Nat.zero_lt_of_lt hlt) heq) (Nat.succ_ne_zero _)
  · intro heq
    rw [heq, Nat.add_mod_right, Nat.add_zero]

theorem Holds.push (h : q.Holds n l) (hlt : l.length + 1 < n) :
    (q.push n a).Holds n (l ++ [a]) where
  front := h.front
  length := by rwa [List.length_append, List.length_singleton]
  rear := by
    change (q.rear + 1) % n = _
    rw [h.rear, Nat.mod_add_mod, List.length_append, List.length_singleton, Nat.add_assoc]
    rfl
  cells i hi := by
    rw [List.length_append, List.length_singleton] at hi
    change Function.update q.cells q.rear a ((q.front + i) % n) = _
    -- the new cell, or one of the old ones
    by_cases hlast : i = l.length
    · subst hlast
      rw [← h.rear, Function.update_self, List.getElem_concat_length rfl]
    · have hold : i < l.length := by omega
      have hne : (q.front + i) % n ≠ q.rear := by
        rw [h.rear]
        exact fun heq => hlast (add_mod_inj (by omega) h.length heq)
      rw [Function.update_of_ne hne, h.cells i hold, List.getElem_append_left hold]

theorem Holds.pop (h : q.Holds n (a :: l)) : q.cells q.front = a ∧ (q.pop n).Holds n l := by
  have hlength := h.length
  rw [List.length_cons] at hlength
  constructor
  · have hfirst := h.cells 0 (Nat.zero_lt_succ _)
    rwa [Nat.add_zero, Nat.mod_eq_of_lt h.front] at hfirst
  · refine ⟨Nat.mod_lt _ (Nat.zero_lt_of_lt hlength), by omega, ?_, fun i hi => ?_⟩
    · change q.rear = ((q.front + 1) % n + l.length) % n
      rw [h.rear, Nat.mod_add_mod, List.length_cons, Nat.add_assoc, Nat.add_comm 1]
    · change q.cells (((q.front + 1) % n + i) % n) = _
      have hnext := h.cells (i + 1) (Nat.succ_lt_succ hi)
      rw [List.getElem_cons_succ] at hnext
      rw [Nat.mod_add_mod, Nat.add_assoc, Nat.add_comm 1, hnext]

end RingBuffer
