import Nemu.Expr.Token

/-!
# find_dominated_op

The linear scan of `tokens[p .. q]` for the operator at which an expression is split: among the
operators outside all round brackets, the last one of the lowest priority.
-/

namespace Nemu

/-- `cur_priority` in the operator cases of the `switch`. -/
def TokenType.priority : TokenType → Option Nat
  | .tkOr => some 0
  | .tkAnd => some 1
  | .tkEq | .tkUeq => some 2
  | .plus | .minus => some 3
  | .times | .divide => some 4
  | .deref => some 5
  | _ => none

/-- The `while` loop from `position` on; the list holds the types of `tokens[position .. q]`. -/
def findDominatedOpLoop : Int → List TokenType → Int → Nat → Int → Int
  | _, [], op, _, _ => op
  | position, t :: rest, op, opPriority, numLeft =>
      match t with
      | .lparen => findDominatedOpLoop (position + 1) rest op opPriority (numLeft + 1)
      | .rparen => findDominatedOpLoop (position + 1) rest op opPriority (numLeft - 1)
      | t =>
          match t.priority with
          | some cur =>
              if numLeft = 0 ∧ cur ≤ opPriority then
                findDominatedOpLoop (position + 1) rest position cur numLeft
              else
                findDominatedOpLoop (position + 1) rest op opPriority numLeft
          | none => findDominatedOpLoop (position + 1) rest op opPriority numLeft

def findDominatedOp (tokens : Nat → Token) (p q : Int) : Int :=
  findDominatedOpLoop p ((segment tokens p q).map Token.type) p 100 0

/-! ## One iteration -/

section Loop

variable (position : Int) {t : TokenType} (rest : List TokenType) (op : Int) (pr : Nat) (n : Int)

theorem findDominatedOpLoop_lparen :
    findDominatedOpLoop position (.lparen :: rest) op pr n =
      findDominatedOpLoop (position + 1) rest op pr (n + 1) := rfl

theorem findDominatedOpLoop_rparen :
    findDominatedOpLoop position (.rparen :: rest) op pr n =
      findDominatedOpLoop (position + 1) rest op pr (n - 1) := rfl

theorem findDominatedOpLoop_operator {k : Nat} (ht : t.priority = some k) :
    findDominatedOpLoop position (t :: rest) op pr n =
      if n = 0 ∧ k ≤ pr then findDominatedOpLoop (position + 1) rest position k n
      else findDominatedOpLoop (position + 1) rest op pr n := by
  cases t <;> simp [TokenType.priority] at ht <;> subst ht <;> rfl

theorem findDominatedOpLoop_skip (hl : t ≠ .lparen) (hr : t ≠ .rparen) (ht : t.priority = none) :
    findDominatedOpLoop position (t :: rest) op pr n =
      findDominatedOpLoop (position + 1) rest op pr n := by
  cases t <;> simp [TokenType.priority] at ht hl hr <;> rfl

/-- Case analysis on the token at the head of the scan. -/
theorem TokenType.scan_cases (t : TokenType) :
    t = .lparen ∨ t = .rparen ∨ (∃ k, t.priority = some k ∧ k ≤ 5) ∨
      (t ≠ .lparen ∧ t ≠ .rparen ∧ t.priority = none) := by
  cases t <;> simp [TokenType.priority]

end Loop

/-! ## The result is an index of the range -/

theorem findDominatedOpLoop_mem {lo hi : Int} (l : List TokenType) {position op : Int} {pr : Nat}
    {n : Int} (hop : lo ≤ op ∧ op ≤ hi) (hlo : lo ≤ position)
    (hhi : position + l.length ≤ hi + 1) :
    lo ≤ findDominatedOpLoop position l op pr n ∧ findDominatedOpLoop position l op pr n ≤ hi := by
  induction l generalizing position op pr n with
  | nil =>
      exact hop
  | cons t rest ih =>
      rw [List.length_cons] at hhi
      have hlo' : lo ≤ position + 1 := by omega
      have hhi' : position + 1 + rest.length ≤ hi + 1 := by omega
      have hpos : lo ≤ position ∧ position ≤ hi := by omega
      rcases t.scan_cases with rfl | rfl | ⟨k, hk, -⟩ | ⟨hl, hr, hk⟩
      · -- only an operator at depth 0 replaces the one found so far
        rw [findDominatedOpLoop_lparen]
        exact ih hop hlo' hhi'
      · rw [findDominatedOpLoop_rparen]
        exact ih hop hlo' hhi'
      · rw [findDominatedOpLoop_operator position rest op pr n hk]
        by_cases hc : n = 0 ∧ k ≤ pr
        · rw [if_pos hc]
          exact ih hpos hlo' hhi'
        · rw [if_neg hc]
          exact ih hop hlo' hhi'
      · rw [findDominatedOpLoop_skip position rest op pr n hl hr hk]
        exact ih hop hlo' hhi'

theorem findDominatedOp_mem (tokens : Nat → Token) {p q : Int} (h : p ≤ q) :
    p ≤ findDominatedOp tokens p q ∧ findDominatedOp tokens p q ≤ q := by
  refine findDominatedOpLoop_mem _ ⟨Int.le_refl p, h⟩ (Int.le_refl p) ?_
  rw [List.length_map, length_segment]
  omega

/-! ## The scan does not depend on where the range lies -/

theorem findDominatedOpLoop_shift (d : Int) (l : List TokenType) (position op : Int) (pr : Nat)
    (n : Int) :
    findDominatedOpLoop (position + d) l (op + d) pr n =
      findDominatedOpLoop position l op pr n + d := by
  induction l generalizing position op pr n with
  | nil =>
      rfl
  | cons t rest ih =>
      have hnext : position + d + 1 = position + 1 + d := by omega
      rcases t.scan_cases with rfl | rfl | ⟨k, hk, -⟩ | ⟨hl, hr, hk⟩
      · rw [findDominatedOpLoop_lparen, findDominatedOpLoop_lparen, hnext, ih]
      · rw [findDominatedOpLoop_rparen, findDominatedOpLoop_rparen, hnext, ih]
      · rw [findDominatedOpLoop_operator _ _ _ _ _ hk, findDominatedOpLoop_operator _ _ _ _ _ hk,
          hnext]
        by_cases hc : n = 0 ∧ k ≤ pr
        · rw [if_pos hc, if_pos hc, ih]
        · rw [if_neg hc, if_neg hc, ih]
      · rw [findDominatedOpLoop_skip _ _ _ _ _ hl hr hk,
          findDominatedOpLoop_skip _ _ _ _ _ hl hr hk,
          hnext, ih]

/-- The offset of the dominated operator in a list of tokens. -/
def dominatedOffset (l : List Token) : Nat :=
  (findDominatedOpLoop 0 (l.map Token.type) 0 100 0).toNat

theorem dominatedOffset_lt {l : List Token} (h : l ≠ []) : dominatedOffset l < l.length := by
  have hlen : 0 < l.length := List.length_pos_iff.2 h
  have hmem := @findDominatedOpLoop_mem 0 (l.length - 1) (l.map Token.type) 0 0 100 0 (by omega)
    (Int.le_refl 0) (by rw [List.length_map]; omega)
  simp only [dominatedOffset]
  omega

theorem findDominatedOp_eq (tokens : Nat → Token) {p q : Int} (h : p ≤ q) :
    findDominatedOp tokens p q = p + dominatedOffset (segment tokens p q) := by
  have hshift := findDominatedOpLoop_shift p ((segment tokens p q).map Token.type) 0 0 100 0
  rw [Int.zero_add] at hshift
  have hmem := findDominatedOp_mem tokens h
  simp only [findDominatedOp, dominatedOffset] at hmem ⊢
  omega

end Nemu
