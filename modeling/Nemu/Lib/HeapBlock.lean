import Mathlib.Tactic.Common

/-!
# Blocks of memory

A block is what an allocator returns: cells, of which the first `size` may be used.  An access
behind the size is `none`.  `upTo n` is the list in the first `n` cells, by which an array that is
filled from its start is described.
-/

namespace HeapBlock

universe u

structure Block (α : Type u) where
  cell : Nat → α
  size : Nat

namespace Block

variable {α : Type u}

def load? (b : Block α) (k : Nat) : Option α := if k < b.size then some (b.cell k) else none

def store? (b : Block α) (k : Nat) (x : α) : Option (Block α) :=
  if k < b.size then some { b with cell := Function.update b.cell k x } else none

/-- The `n` cells from `k` on. -/
def fill? (b : Block α) (k n : Nat) (x : α) : Option (Block α) :=
  if k + n ≤ b.size then
    some { b with cell := fun i => if k ≤ i ∧ i < k + n then x else b.cell i }
  else none

/-- What the new cells hold is not known, so that it may as well be there already. -/
def realloc (b : Block α) (n : Nat) : Block α := { b with size := n }

def upTo (b : Block α) (n : Nat) : List α := (List.range n).map b.cell

variable (b : Block α) {k n : Nat} (x : α)

@[simp] theorem size_realloc : (b.realloc n).size = n := rfl

@[simp] theorem upTo_realloc (m : Nat) : (b.realloc m).upTo n = b.upTo n := rfl

/-- A block that may have been enlarged holds what it held. -/
theorem upTo_ite_realloc {c : Prop} [Decidable c] (m : Nat) :
    (if c then b.realloc m else b).upTo n = b.upTo n := by
  split <;> rfl

@[simp] theorem upTo_zero : b.upTo 0 = [] := rfl

theorem length_upTo (n : Nat) : (b.upTo n).length = n := by simp [upTo]

theorem upTo_succ (n : Nat) : b.upTo (n + 1) = b.upTo n ++ [b.cell n] := by
  simp [upTo, List.range_succ]

/-- The last of the cells in use. -/
theorem getLast?_upTo (hpos : 0 < n) (hn : n ≤ b.size) :
    (b.upTo n).getLast? = b.load? (n - 1) := by
  cases n with
  | zero => exact absurd hpos (Nat.lt_irrefl 0)
  | succ n =>
      rw [upTo_succ, List.getLast?_concat, load?, Nat.add_sub_cancel,
        if_pos (Nat.lt_of_succ_le hn)]

variable {b}

/-- A store behind the cells in use makes the list one longer. -/
theorem store?_upTo (hn : n < b.size) :
    ∃ b', b.store? n x = some b' ∧ b'.size = b.size ∧ b'.upTo (n + 1) = b.upTo n ++ [x] := by
  refine ⟨_, if_pos hn, rfl, ?_⟩
  have hinit : (List.range n).map (Function.update b.cell n x) = b.upTo n :=
    List.map_congr_left fun i hi =>
      Function.update_of_ne (Nat.ne_of_lt (List.mem_range.1 hi)) x b.cell
  have hlast : Function.update b.cell n x n = x := Function.update_self n x b.cell
  rw [upTo_succ, upTo, hinit]
  exact congrArg (fun c => b.upTo n ++ [c]) hlast

theorem fill?_upTo (hn : k + n ≤ b.size) :
    ∃ b', b.fill? k n x = some b' ∧ b'.size = b.size ∧
      b'.upTo (k + n) = b.upTo k ++ List.replicate n x := by
  refine ⟨_, if_pos hn, rfl, ?_⟩
  refine List.ext_getElem (by simp [upTo]) fun i hi hi' => ?_
  have hlt : i < k + n := by rwa [length_upTo] at hi
  simp only [upTo, List.getElem_map, List.getElem_range, List.getElem_append, List.length_map,
    List.length_range, List.getElem_replicate]
  by_cases hik : i < k
  · rw [dif_pos hik, if_neg fun h => Nat.not_lt.2 h.1 hik]
  · rw [dif_neg hik, if_pos ⟨Nat.not_lt.1 hik, hlt⟩]

end Block

end HeapBlock
