import Nemu.Expr.Token

/-!
# The bracket stack

`Stack` of `src/monitor/debug/expr.c`: a growing array with a `top` pointer.  `top` is kept as its
distance from `base`.  A `push` moves `top` first and stores through it then, so it stores at index
`top + 1`; an index that is not below `stacksize` lies outside the block.

`lifo` is the stack the code is meant to have, and `Holds` relates the two.
-/

namespace Nemu

def stackInitSize : Nat := 100

def stackIncrement : Nat := 10

structure Stack (α : Type) where
  mem : Nat → α
  top : Nat
  stacksize : Nat

namespace Stack

variable {α : Type}

/-- `InitStack` with a successful `malloc`; the block holds what it held before. -/
def initStack (block : Nat → α) : Stack α :=
  { mem := block, top := 0, stacksize := stackInitSize }

def stackEmpty (S : Stack α) : Bool := S.top == 0

/-- The `realloc` of `Push`, when the stack is full. -/
def grow (S : Stack α) : Stack α :=
  if S.stacksize ≤ S.top then
    { S with top := S.stacksize, stacksize := S.stacksize + stackIncrement }
  else S

def push (S : Stack α) (e : α) : Except Fault (Stack α) :=
  let S := S.grow
  if S.top + 1 < S.stacksize then
    .ok { S with top := S.top + 1, mem := fun i => if i = S.top + 1 then e else S.mem i }
  else .error .bounds

/-- `none` stands for the status `ERROR`. -/
def pop (S : Stack α) : Except Fault (Option (α × Stack α)) :=
  if S.top = 0 then .ok none
  else if S.top < S.stacksize then .ok (some (S.mem S.top, { S with top := S.top - 1 }))
  else .error .bounds

end Stack

/-! ## Stack implementations -/

/-- What `check_parentheses` uses of a stack. -/
structure StackOps (σ : Type) where
  init : σ
  isEmpty : σ → Bool
  push : σ → TokenType → Except Fault σ
  pop : σ → Except Fault (Option (TokenType × σ))

/-- The stack of the source. -/
def codeStack : StackOps (Stack TokenType) where
  init := Stack.initStack (fun _ => .null)
  isEmpty := Stack.stackEmpty
  push := Stack.push
  pop := Stack.pop

/-- An unbounded last-in first-out stack. -/
def lifo : StackOps (List TokenType) where
  init := []
  isEmpty := List.isEmpty
  push := fun L e => .ok (e :: L)
  pop := fun L =>
    match L with
    | [] => .ok none
    | e :: L => .ok (some (e, L))

/-! ## The code's stack behaves as a LIFO below its first capacity -/

/-- The stack has not grown yet and holds the elements of `L`, the last pushed one first. -/
structure Stack.Holds {α : Type} (S : Stack α) (L : List α) : Prop where
  size : S.stacksize = stackInitSize
  top : S.top = L.length
  fits : L.length < stackInitSize
  elems : ∀ k a, L[k]? = some a → S.mem (L.length - k) = a

namespace Stack.Holds

variable {α : Type} {S : Stack α} {L : List α}

theorem init (block : Nat → α) : Holds (Stack.initStack block) [] where
  size := rfl
  top := rfl
  fits := Nat.zero_lt_succ 99
  elems := by
    intro k a h
    simp at h

theorem stackEmpty (h : Holds S L) : S.stackEmpty = L.isEmpty := by
  cases L with
  | nil =>
      simp [Stack.stackEmpty, h.top]
  | cons a L =>
      simp [Stack.stackEmpty, h.top]

theorem grow (h : Holds S L) : S.grow = S := by
  have hlt : ¬ S.stacksize ≤ S.top := by
    rw [h.size, h.top]
    exact Nat.not_le.2 h.fits
  simp [Stack.grow, hlt]

/-- A push below capacity adds the element; the push that would fill the block runs out of it. -/
theorem push (h : Holds S L) (e : α) :
    (L.length + 1 < stackInitSize → ∃ S', S.push e = .ok S' ∧ Holds S' (e :: L)) ∧
      (stackInitSize ≤ L.length + 1 → S.push e = .error .bounds) := by
  constructor
  · -- the new element above the old ones
    intro hfit
    have hlt : S.top + 1 < S.stacksize := by
      rw [h.size, h.top]
      exact hfit
    refine ⟨{ S with top := S.top + 1, mem := fun i => if i = S.top + 1 then e else S.mem i },
      by simp [Stack.push, h.grow, hlt], h.size, by simp [h.top], hfit, ?_⟩
    intro k a hk
    cases k with
    | zero =>
        simp only [List.getElem?_cons_zero, Option.some.injEq] at hk
        simp [h.top, hk]
    | succ k =>
        simp only [List.getElem?_cons_succ] at hk
        have hklt : k < L.length := (List.getElem?_eq_some_iff.1 hk).1
        have hidx : (e :: L).length - (k + 1) = L.length - k := by simp
        have hne : L.length - k ≠ S.top + 1 := by
          rw [h.top]
          omega
        simp only [hidx, hne, if_false]
        exact h.elems k a hk
  · -- the test for `realloc` would have been true one push later
    intro hfull
    have hnot : ¬ S.top + 1 < S.stacksize := by
      rw [h.size, h.top]
      omega
    simp [Stack.push, h.grow, hnot]

theorem pop_nil {S : Stack α} (h : Holds S []) : S.pop = .ok none := by
  simp [Stack.pop, h.top]

theorem pop_cons {e : α} (h : Holds S (e :: L)) :
    ∃ S', S.pop = .ok (some (e, S')) ∧ Holds S' L := by
  have hne : S.top ≠ 0 := by simp [h.top]
  have hlt : S.top < S.stacksize := by
    rw [h.size, h.top]
    exact h.fits
  have htop : S.mem S.top = e := by
    have helem := h.elems 0 e rfl
    simpa [h.top] using helem
  refine ⟨{ S with top := S.top - 1 }, by simp [Stack.pop, hne, hlt, htop], h.size, ?_, ?_, ?_⟩
  · simp [h.top]
  · have hfits := h.fits
    simp only [List.length_cons] at hfits
    omega
  · intro k a hk
    have helem := h.elems (k + 1) a (by simpa using hk)
    simpa using helem

end Stack.Holds

end Nemu
