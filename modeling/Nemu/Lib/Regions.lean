import Mathlib.Order.Defs.PartialOrder
import Mathlib.Tactic.Common

/-!
# Regions behind a moving pointer

A region is a half-open interval.  `Bumps a rs b` says that an allocator which only moves one
pointer forward has handed out the regions `rs` while the pointer went from `a` to `b`.  Whatever
the allocator rounds the sizes to, the regions lie between the two ends and have no point in common.
-/

namespace Regions

variable {α : Type*}

structure Region (α : Type*) where
  base : α
  size : α
  deriving DecidableEq, Repr

section Definitions

variable [LE α] [LT α] [Add α]

def Region.Contains (r : Region α) (x : α) : Prop := r.base ≤ x ∧ x < r.base + r.size

def Region.Disjoint (r r' : Region α) : Prop := ∀ x, r.Contains x → ¬ r'.Contains x

inductive Bumps : α → List (Region α) → α → Prop where
  | nil (a : α) : Bumps a [] a
  | cons {a b c : α} {r : Region α} {rs : List (Region α)} :
      r.base = a → a ≤ b → a + r.size ≤ b → Bumps b rs c → Bumps a (r :: rs) c

end Definitions

namespace Bumps

variable [Preorder α] [Add α] {a b : α} {rs : List (Region α)}

theorem le (h : Bumps a rs b) : a ≤ b := by
  induction h with
  | nil a => exact le_refl a
  | cons _ hle _ _ ih => exact le_trans hle ih

/-- The regions lie between the ends. -/
theorem between (h : Bumps a rs b) : ∀ r ∈ rs, a ≤ r.base ∧ r.base + r.size ≤ b := by
  induction h with
  | nil a => simp
  | cons hbase hle hsize hrest ih =>
      intro r' hr'
      rcases List.mem_cons.1 hr' with rfl | hmem
      · rw [hbase]
        exact ⟨le_refl _, le_trans hsize hrest.le⟩
      · exact ⟨le_trans hle (ih r' hmem).1, (ih r' hmem).2⟩

/-- Each region ends where the later ones have not begun. -/
theorem apart (h : Bumps a rs b) : rs.Pairwise fun r r' => r.base + r.size ≤ r'.base := by
  induction h with
  | nil a => exact List.Pairwise.nil
  | cons hbase _ hsize hrest ih =>
      refine List.pairwise_cons.2 ⟨fun r' hr' => ?_, ih⟩
      rw [hbase]
      exact le_trans hsize (hrest.between r' hr').1

theorem disjoint (h : Bumps a rs b) : rs.Pairwise Region.Disjoint := by
  refine h.apart.imp fun hle x hx hx' => ?_
  exact lt_irrefl x (lt_of_lt_of_le hx.2 (le_trans hle hx'.1))

end Bumps

end Regions
