import Mathlib.Data.List.Chain

/-!
# Lists of neighbours

`Linked R S E l`: neighbours in `l` are related by `R`, its first element satisfies `S` and its last
one `E`.  A list put together from linked parts is linked when the places where the parts meet are.
-/

variable {α : Type} {R : α → α → Prop} {S E : α → Prop}

structure Linked (R : α → α → Prop) (S E : α → Prop) (l : List α) : Prop where
  chain : l.IsChain R
  head : ∃ a, l.head? = some a ∧ S a
  last : ∃ a, l.getLast? = some a ∧ E a

namespace Linked

theorem singleton {a : α} (hS : S a) (hE : E a) : Linked R S E [a] :=
  ⟨.singleton a, ⟨a, rfl, hS⟩, ⟨a, rfl, hE⟩⟩

theorem cons {a : α} {l : List α} (hS : S a) (hR : ∀ b, S b → R a b) (h : Linked R S E l) :
    Linked R S E (a :: l) := by
  rcases h with ⟨hchain, ⟨b, hb, hbS⟩, ⟨c, hc, hcE⟩⟩
  refine ⟨List.isChain_cons.2 ⟨?_, hchain⟩, ⟨a, rfl, hS⟩, ⟨c, ?_, hcE⟩⟩
  · intro y hy
    rw [hb] at hy
    cases hy
    exact hR b hbS
  · rw [List.getLast?_cons, hc]
    rfl

theorem concat {a : α} {l : List α} (h : Linked R S E l) (hR : ∀ b, E b → R b a) (hE : E a) :
    Linked R S E (l ++ [a]) := by
  rcases h with ⟨hchain, ⟨b, hb, hbS⟩, ⟨c, hc, hcE⟩⟩
  refine ⟨hchain.append (.singleton a) ?_, ⟨b, ?_, hbS⟩, ⟨a, by simp, hE⟩⟩
  · intro x hx y hy
    rw [hc] at hx
    cases hx
    cases hy
    exact hR c hcE
  · rw [List.head?_append, hb]
    rfl

/-- Two linked lists with an element between them. -/
theorem join {a : α} {l m : List α} (h : Linked R S E l) (hleft : ∀ b, E b → R b a)
    (hright : ∀ b, S b → R a b) (h' : Linked R S E m) : Linked R S E (l ++ a :: m) := by
  rcases h with ⟨hchain, ⟨b, hb, hbS⟩, ⟨c, hc, hcE⟩⟩
  rcases h' with ⟨hchain', ⟨b', hb', hbS'⟩, ⟨c', hc', hcE'⟩⟩
  refine ⟨hchain.append (List.isChain_cons.2 ⟨?_, hchain'⟩) ?_, ⟨b, ?_, hbS⟩, ⟨c', ?_, hcE'⟩⟩
  · intro y hy
    rw [hb'] at hy
    cases hy
    exact hright b' hbS'
  · intro x hx y hy
    rw [hc] at hx
    cases hx
    cases hy
    exact hleft c hcE
  · rw [List.head?_append, hb]
    rfl
  · rw [List.getLast?_append, List.getLast?_cons, hc']
    rfl

end Linked
