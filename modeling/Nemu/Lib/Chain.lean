import Mathlib.Data.List.Basic
import Mathlib.Data.List.Nodup
import Mathlib.Logic.Function.Basic
import Mathlib.Tactic.Common

/-!
# Linked chains

`next : α → Option α` holds the successors of nodes.  `Path next p l q` says that following the
successors from `p` visits the nodes of `l` in order and arrives at `q`; a chain that ends is a
path to `none`.  Such a path visits no node twice, and a change of one successor is a
`Function.update`.
-/

namespace Chain

variable {α : Type*} {next next' : α → Option α} {p q r : Option α} {a b : α} {l m : List α}

def Path (next : α → Option α) : Option α → List α → Option α → Prop
  | p, [], q => p = q
  | p, a :: l, q => p = some a ∧ Path next (next a) l q

@[simp] theorem path_nil : Path next p [] q ↔ p = q := Iff.rfl

@[simp] theorem path_cons : Path next p (a :: l) q ↔ p = some a ∧ Path next (next a) l q := Iff.rfl

instance decidablePath [DecidableEq α] (next : α → Option α) :
    (p : Option α) → (l : List α) → (q : Option α) → Decidable (Path next p l q)
  | p, [], q => inferInstanceAs (Decidable (p = q))
  | p, a :: l, q =>
      have := decidablePath next (next a) l q
      inferInstanceAs (Decidable (p = some a ∧ Path next (next a) l q))

namespace Path

theorem append (h : Path next p l q) (h' : Path next q m r) : Path next p (l ++ m) r := by
  induction l generalizing p with
  | nil =>
      rw [path_nil] at h
      rw [h]
      exact h'
  | cons a l ih =>
      exact ⟨h.1, ih h.2⟩

/-- A path is cut at any node. -/
theorem split (h : Path next p (l ++ a :: m) q) :
    Path next p l (some a) ∧ Path next (next a) m q := by
  induction l generalizing p with
  | nil =>
      exact ⟨h.1, h.2⟩
  | cons b l ih =>
      rcases ih h.2 with ⟨hleft, hright⟩
      exact ⟨⟨h.1, hleft⟩, hright⟩

/-- Only the successors of the nodes on the path matter. -/
theorem congr (h : Path next p l q) (hnext : ∀ a ∈ l, next' a = next a) : Path next' p l q := by
  induction l generalizing p with
  | nil => exact h
  | cons a l ih =>
      refine ⟨h.1, ?_⟩
      rw [hnext a (by simp)]
      exact ih h.2 fun b hb => hnext b (by simp [hb])

/-- A chain that ends is determined by where it starts. -/
theorem unique (h : Path next p l none) (h' : Path next p m none) : l = m := by
  induction l generalizing p m with
  | nil =>
      cases m with
      | nil => rfl
      | cons b m =>
          rw [path_nil] at h
          rw [h] at h'
          cases h'.1
  | cons a l ih =>
      cases m with
      | nil =>
          rw [path_nil] at h'
          rw [h'] at h
          cases h.1
      | cons b m =>
          have hab : a = b := Option.some.inj (h.1.symm.trans h'.1)
          subst hab
          rw [ih h.2 h'.2]

/-- A chain that ends visits no node twice. -/
theorem nodup (h : Path next p l none) : l.Nodup := by
  induction l generalizing p with
  | nil => exact List.nodup_nil
  | cons a l ih =>
      refine List.nodup_cons.2 ⟨fun hmem => ?_, ih h.2⟩
      -- a second visit of `a` would end in fewer steps than the first
      rcases List.append_of_mem hmem with ⟨l₁, l₂, rfl⟩
      have htail := (split h.2).2
      have heq := unique h.2 htail
      have hlen := congrArg List.length heq
      rw [List.length_append, List.length_cons] at hlen
      omega

variable [DecidableEq α]

/-- A change away from the path. -/
theorem update (h : Path next p l q) (ha : a ∉ l) : Path (Function.update next a r) p l q := by
  refine h.congr fun b hb => Function.update_of_ne ?_ _ _
  rintro rfl
  exact ha hb

/-- A node is hung on the end of a chain. -/
theorem snoc (h : Path next p (l ++ [a]) none) (hb : b ∉ l ++ [a]) (hend : next b = none) :
    Path (Function.update next a (some b)) p (l ++ [a, b]) none := by
  have ha : a ∉ l := by
    have hnodup := h.nodup
    rw [List.nodup_append] at hnodup
    exact fun hmem => hnodup.2.2 a hmem a (by simp) rfl
  have hab : b ≠ a := fun heq => hb (by simp [heq])
  refine ((split h).1.update ha).append ⟨rfl, ?_, ?_⟩
  · exact Function.update_self _ _ _
  · rw [Function.update_of_ne hab]
    exact hend

/-- A node is taken out of a chain behind another one. -/
theorem unlink (h : Path next p (l ++ a :: b :: m) none) :
    Path (Function.update next a (next b)) p (l ++ a :: m) none := by
  have hnodup := h.nodup
  rcases split h with ⟨hleft, hright⟩
  have ha : a ∉ l ∧ a ∉ m := by
    rw [List.nodup_append, List.nodup_cons] at hnodup
    exact ⟨fun hmem => hnodup.2.2 a hmem a (by simp) rfl, fun hmem => hnodup.2.1.1 (by simp [hmem])⟩
  refine (hleft.update ha.1).append ⟨rfl, ?_⟩
  rw [Function.update_self]
  exact hright.2.update ha.2

end Path

end Chain
