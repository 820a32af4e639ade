import Mathlib.Data.List.Basic
import Mathlib.Tactic.Common

/-!
# Words over several kinds of brackets

`Balanced` is the grammar of the properly nested words over brackets of any kinds, and `Matches`
says which brackets of a word belong together.  `scan` reads a word with a stack of the kinds that
are open; `closesLast` does so as well, and also asks that the stack gets empty with the last
bracket and not before.
-/

/-- An opening or a closing bracket of a kind. -/
inductive BracketSymbol (κ : Type*)
  | opening (k : κ)
  | closing (k : κ)

namespace BracketSymbol

variable {κ : Type*} {k : κ} {u v w : List (BracketSymbol κ)} {S : List κ}

inductive Balanced : List (BracketSymbol κ) → Prop
  | nil : Balanced []
  | pair (k : κ) {u v : List (BracketSymbol κ)} :
      Balanced u → Balanced v → Balanced (opening k :: (u ++ closing k :: v))

/-- The bracket at index `i` of the word is opened there and closed at index `j`. -/
def Matches (w : List (BracketSymbol κ)) (i j : Nat) : Prop :=
  ∃ before k u after, w = before ++ opening k :: (u ++ closing k :: after) ∧ Balanced u ∧
    i = before.length ∧ j = i + u.length + 1

/-- The first bracket of a word is matched by the last one when what lies between is balanced. -/
theorem matches_ends_iff :
    Matches (opening k :: w) 0 w.length ↔ ∃ u, Balanced u ∧ w = u ++ [closing k] := by
  constructor
  · rintro ⟨before, k', u, after, hw, hu, hi, hj⟩
    have hbefore : before = [] := List.length_eq_zero_iff.1 hi.symm
    subst hbefore
    rw [List.nil_append, List.cons.injEq, opening.injEq] at hw
    rcases hw with ⟨rfl, rfl⟩
    -- nothing follows the closing bracket
    have hafter : after = [] := by
      rw [← List.length_eq_zero_iff]
      simp only [List.length_append, List.length_cons] at hj
      omega
    exact ⟨u, hu, by rw [hafter]⟩
  · rintro ⟨u, hu, rfl⟩
    exact ⟨[], k, u, [], rfl, hu, rfl, by simp⟩

theorem balanced_of_matches_ends (h : Matches (opening k :: w) 0 w.length) :
    Balanced (opening k :: w) := by
  rcases matches_ends_iff.1 h with ⟨u, hu, rfl⟩
  exact Balanced.pair k hu Balanced.nil

/-! ## Stack machines -/

section Machines

variable [DecidableEq κ]

/-- The kinds that are open after a word, the last one opened first; `none` when a closing bracket
does not find its kind on the top. -/
def scan : List (BracketSymbol κ) → List κ → Option (List κ)
  | [], S => some S
  | opening k :: w, S => scan w (k :: S)
  | closing _ :: _, [] => none
  | closing k :: w, k' :: S => if k' = k then scan w S else none

/-- Whether the word empties the stack with its last bracket and not before. -/
def closesLast : List (BracketSymbol κ) → List κ → Bool
  | [], S => S.isEmpty
  | _ :: _, [] => false
  | opening k :: w, k' :: S => closesLast w (k :: k' :: S)
  | closing k :: w, k' :: S => if k' = k then closesLast w S else false

theorem closesLast_nil_stack : closesLast w [] = true ↔ w = [] := by
  cases w with
  | nil => simp [closesLast]
  | cons b w => simp [closesLast]

/-- A word that closes everything on a stack closes its top after a balanced word. -/
theorem exists_of_closesLast (n : Nat) (hn : w.length ≤ n)
    (h : closesLast w (k :: S) = true) :
    ∃ u v, Balanced u ∧ w = u ++ closing k :: v ∧ closesLast v S = true := by
  induction n generalizing w k S with
  | zero =>
      rw [List.length_eq_zero_iff.1 (Nat.le_zero.1 hn)] at h
      cases h
  | succ n ih =>
      match w with
      | [] => cases h
      | opening k' :: w =>
          rw [List.length_cons] at hn
          -- first the new bracket is closed, and then the top of the stack
          rcases ih (Nat.le_of_succ_le_succ hn) h with ⟨u₁, v₁, hu₁, rfl, h₁⟩
          rw [List.length_append, List.length_cons] at hn
          rcases ih (by omega) h₁ with ⟨u₂, v₂, hu₂, rfl, h₂⟩
          exact ⟨opening k' :: (u₁ ++ closing k' :: u₂), v₂, hu₁.pair k' hu₂, by simp, h₂⟩
      | closing k' :: w =>
          rw [closesLast] at h
          by_cases hk : k = k'
          · rw [if_pos hk] at h
            exact ⟨[], w, Balanced.nil, by rw [hk]; rfl, h⟩
          · rw [if_neg hk] at h
            cases h

theorem closesLast_balanced_append (hu : Balanced u) (v : List (BracketSymbol κ)) (k : κ)
    (S : List κ) : closesLast (u ++ v) (k :: S) = closesLast v (k :: S) := by
  induction hu generalizing v k S with
  | nil => rfl
  | pair k' _ _ ihu ihv =>
      rw [List.cons_append, closesLast, List.append_assoc, ihu, List.cons_append, closesLast,
        if_pos rfl, ihv]

theorem closesLast_iff :
    closesLast w [k] = true ↔ ∃ u, Balanced u ∧ w = u ++ [closing k] := by
  constructor
  · intro h
    rcases exists_of_closesLast w.length (Nat.le_refl _) h with ⟨u, v, hu, rfl, hv⟩
    exact ⟨u, hu, by rw [closesLast_nil_stack.1 hv]⟩
  · rintro ⟨u, hu, rfl⟩
    rw [closesLast_balanced_append hu, closesLast, if_pos rfl]
    rfl

end Machines

end BracketSymbol
