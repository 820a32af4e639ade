import Nemu.Expr.Eval

/-!
# Evaluation of token lists

`evalSegment` is `eval` on the list of the tokens in the range, over a stack implementation for
the bracket test.  Two facts connect it with the source:

* `eval_eq_evalSegment`: with the source's stack it is `eval`;
* `evalSegment_sim`: with an unbounded stack it gives the same result, unless 100 brackets are
  open at a time and the source's stack overflows.
-/

namespace Nemu

open StateRules

/-! ## The bracket test on a list -/

/-- `check_parentheses` on the list of the types in the range. -/
def checkSegment {σ : Type} (ops : StackOps σ) (temp : List TokenType) : OnEval Bool :=
  if temp.head? ≠ some .lparen ∨ temp.getLast? ≠ some .rparen then
    return false
  else do
    let (flag, S) ← checkParenthesesLoop ops 0 0 temp ops.init
    return flag && ops.isEmpty S

theorem checkParenthesesLoop_shift {σ : Type} (ops : StackOps σ) (p i d : Int)
    (ts : List TokenType) (S : σ) :
    checkParenthesesLoop ops (p + d) (i + d) ts S = checkParenthesesLoop ops p i ts S := by
  induction ts generalizing i S with
  | nil =>
      rfl
  | cons e rest ih =>
      have hnext : i + d + 1 = i + 1 + d := by omega
      have hfirst : (i + d == p + d) = (i == p) := by
        rw [Bool.eq_iff_iff, beq_iff_eq, beq_iff_eq]
        omega
      cases ho : e.isOpen with
      | true =>
          simp only [checkParenthesesLoop_open ops _ _ rest S ho, hfirst, hnext, ih]
      | false =>
          cases hc : e.opener? with
          | some o =>
              simp only [checkParenthesesLoop_close ops _ _ rest S hc, hnext, ih]
          | none =>
              rw [checkParenthesesLoop_other ops _ _ rest S ho hc,
                checkParenthesesLoop_other ops _ _ rest S ho hc, hnext, ih]

theorem getLast?_segment (tokens : Nat → Token) {p q : Int} (h : p ≤ q) :
    (segment tokens p q).getLast? = some (tokens q.toNat) := by
  have hlen : (segment tokens p q).length - 1 = (q - p).toNat := by
    rw [length_segment]
    omega
  have hidx : p + ((q - p).toNat : Int) = q := by omega
  rw [List.getLast?_eq_getElem?, hlen, getElem?_segment (by omega), hidx]

theorem checkParenthesesWith_eq {σ : Type} (ops : StackOps σ) (tokens : Nat → Token) {p q : Int}
    (h : p ≤ q) :
    checkParenthesesWith ops tokens p q =
      checkSegment ops ((segment tokens p q).map Token.type) := by
  have hhead : ((segment tokens p q).map Token.type).head? = some (tokens p.toNat).type := by
    rw [segment_cons h]
    rfl
  have hlast : ((segment tokens p q).map Token.type).getLast? = some (tokens q.toNat).type := by
    rw [List.getLast?_map, getLast?_segment tokens h]
    rfl
  have hloop := checkParenthesesLoop_shift ops 0 0 p ((segment tokens p q).map Token.type) ops.init
  rw [Int.zero_add] at hloop
  unfold checkParenthesesWith checkSegment
  simp only [hhead, hlast, hloop, ne_eq, Option.some.injEq]

/-! ## The recursion on a list -/

def evalSegment {σ : Type} (ops : StackOps σ) (cpu : CPUState) : List Token → OnEval Word
  | [] => do
      log .startBiggerThanEnd
      return 0
  | [t] => evalLeaf cpu t
  | t :: u :: rest => do
      let l := t :: u :: rest
      let surrounded ← checkSegment ops (l.map Token.type)
      if surrounded then
        evalSegment ops cpu l.tail.dropLast
      else
        match l[dominatedOffset l]? with
        | none => return 0
        | some op =>
            if op.type ≠ .deref then do
              let val1 ← evalSegment ops cpu (l.take (dominatedOffset l))
              let val2 ← evalSegment ops cpu (l.drop (dominatedOffset l + 1))
              applyOp op.type val1 val2
            else do
              let val1 ← evalSegment ops cpu (l.drop (dominatedOffset l + 1))
              liftBus (vaddrRead val1 4)
termination_by l => l.length
decreasing_by
  · simp only [List.tail_cons, List.length_dropLast, List.length_cons]
    omega
  · have hlt := dominatedOffset_lt (l := t :: u :: rest) (by simp)
    rw [List.length_take]
    omega
  · rw [List.length_drop, List.length_cons]
    omega
  · rw [List.length_drop, List.length_cons]
    omega

/-- The recursion step on a list of two or more tokens. -/
theorem evalSegment_split {σ : Type} (ops : StackOps σ) (cpu : CPUState) {l : List Token}
    (h : 2 ≤ l.length) {op : Token} (hop : l[dominatedOffset l]? = some op) :
    evalSegment ops cpu l =
      checkSegment ops (l.map Token.type) >>= fun surrounded =>
        if surrounded then evalSegment ops cpu l.tail.dropLast
        else if op.type ≠ .deref then
          evalSegment ops cpu (l.take (dominatedOffset l)) >>= fun val1 =>
            evalSegment ops cpu (l.drop (dominatedOffset l + 1)) >>= fun val2 =>
              applyOp op.type val1 val2
        else
          evalSegment ops cpu (l.drop (dominatedOffset l + 1)) >>= fun val1 =>
            liftBus (vaddrRead val1 4) := by
  match l, h with
  | t :: u :: rest, _ =>
      rw [evalSegment]
      simp only [hop]

/-- Induction along the recursion of `evalSegment`. -/
theorem segment_induction {motive : List Token → Prop} (nil : motive [])
    (single : ∀ t, motive [t])
    (split : ∀ l, 2 ≤ l.length → motive l.tail.dropLast → motive (l.take (dominatedOffset l)) →
      motive (l.drop (dominatedOffset l + 1)) → motive l) : ∀ l, motive l := by
  intro l
  induction l using evalSegment.induct with
  | case1 =>
      exact nil
  | case2 t =>
      exact single t
  | case3 t u rest l ihIn ihLeft ihRight =>
      exact split l (by simp [l]) ihIn ihLeft ihRight

theorem exists_dominated {l : List Token} (h : 2 ≤ l.length) :
    ∃ op, l[dominatedOffset l]? = some op := by
  have hne : l ≠ [] := by
    intro hnil
    simp [hnil] at h
  exact ⟨_, List.getElem?_eq_getElem (dominatedOffset_lt hne)⟩

section Run

variable {σ : Type} {ops : StackOps σ} {cpu : CPUState} {l : List Token} {op : Token}
  {s s₁ s₂ s₃ : EvalState} {v w : Word}

/-- A range inside its brackets. -/
theorem evalSegment_group (h : 2 ≤ l.length)
    (hcheck : checkSegment ops (l.map Token.type) s = .ok true s₁) :
    evalSegment ops cpu l s = evalSegment ops cpu l.tail.dropLast s₁ := by
  rcases exists_dominated h with ⟨op, hop⟩
  rw [evalSegment_split ops cpu h hop, bind_ok hcheck, if_pos rfl]

/-- An operator between two operands that return. -/
theorem evalSegment_binary (h : 2 ≤ l.length) (hop : l[dominatedOffset l]? = some op)
    (hcheck : checkSegment ops (l.map Token.type) s = .ok false s₁) (hbinary : op.type ≠ .deref)
    (hleft : evalSegment ops cpu (l.take (dominatedOffset l)) s₁ = .ok v s₂)
    (hright : evalSegment ops cpu (l.drop (dominatedOffset l + 1)) s₂ = .ok w s₃) :
    evalSegment ops cpu l s = applyOp op.type v w s₃ := by
  rw [evalSegment_split ops cpu h hop, bind_ok hcheck, if_neg Bool.false_ne_true, if_pos hbinary,
    bind_ok hleft, bind_ok hright]

/-- A star in front of an operand that returns. -/
theorem evalSegment_deref (h : 2 ≤ l.length) (hop : l[dominatedOffset l]? = some op)
    (hcheck : checkSegment ops (l.map Token.type) s = .ok false s₁) (hderef : op.type = .deref)
    (hright : evalSegment ops cpu (l.drop (dominatedOffset l + 1)) s₁ = .ok v s₂) :
    evalSegment ops cpu l s = liftBus (vaddrRead v 4) s₂ := by
  rw [evalSegment_split ops cpu h hop, bind_ok hcheck, if_neg Bool.false_ne_true,
    if_neg (not_not.2 hderef), bind_ok hright]

end Run

theorem eval_eq_evalSegment (cpu : CPUState) (tokens : Nat → Token) (p q : Int) :
    eval cpu tokens p q = evalSegment codeStack cpu (segment tokens p q) := by
  induction p, q using eval.induct tokens with
  -- the cases of the source: an empty range, one token, and more than one
  | case1 p q h =>
      rw [eval, dif_pos h, segment_nil h, evalSegment]
  | case2 q h =>
      rw [eval, dif_neg h, if_pos rfl, segment_singleton, evalSegment]
  | case3 p q h hne ihIn ihLeft ihRight =>
      have hle : p ≤ q := Int.not_lt.1 h
      have hlen : 2 ≤ (segment tokens p q).length := by
        rw [length_segment]
        omega
      have hmem := findDominatedOp_mem tokens hle
      have hoff := findDominatedOp_eq tokens hle
      have hop : (segment tokens p q)[dominatedOffset (segment tokens p q)]? =
          some (tokens (findDominatedOp tokens p q).toNat) := by
        rw [getElem?_segment (by omega), ← hoff]
      -- the two ranges at the operator are the two parts of the list
      have hleft : (segment tokens p q).take (dominatedOffset (segment tokens p q)) =
          segment tokens p (findDominatedOp tokens p q - 1) := by
        rw [segment_take (by omega), ← hoff]
      have hright : (segment tokens p q).drop (dominatedOffset (segment tokens p q) + 1) =
          segment tokens (findDominatedOp tokens p q + 1) q := by
        rw [segment_drop (by omega), hoff]
        congr 1
        omega
      have hin : (segment tokens p q).tail.dropLast = segment tokens (p + 1) (q - 1) := by
        rw [segment_cons hle, List.tail_cons, List.dropLast_eq_take, length_segment,
          segment_take (by omega)]
        congr 1
        omega
      rw [eval, dif_neg h, if_neg hne, evalSegment_split codeStack cpu hlen hop, hleft, hright, hin,
        checkParentheses, checkParenthesesWith_eq codeStack tokens hle]
      simp only [ihIn, ihLeft, ihRight]

/-! ## Nesting of parts -/

theorem openAfter_mono {h h' : Nat} (hle : h ≤ h') (t : TokenType) :
    openAfter h t ≤ openAfter h' t := by
  unfold openAfter
  split
  · omega
  · split <;> omega

theorem nesting_mono {h h' : Nat} (hle : h ≤ h') (ts : List TokenType) :
    nesting h ts ≤ nesting h' ts := by
  induction ts generalizing h h' with
  | nil =>
      exact hle
  | cons t rest ih =>
      have hrest := ih (openAfter_mono hle t)
      simp only [nesting]
      omega

theorem nesting_append_left (h : Nat) (ts us : List TokenType) :
    nesting h ts ≤ nesting h (ts ++ us) := by
  induction ts generalizing h with
  | nil =>
      exact le_nesting h us
  | cons t rest ih =>
      have hrest := ih (openAfter h t)
      simp only [List.cons_append, nesting]
      omega

theorem nesting_append_right (h : Nat) (ts us : List TokenType) :
    nesting 0 us ≤ nesting h (ts ++ us) := by
  induction ts generalizing h with
  | nil =>
      exact nesting_mono (Nat.zero_le h) us
  | cons t rest ih =>
      have hrest := ih (openAfter h t)
      simp only [List.cons_append, nesting]
      omega

/-- A part of a token list is nested no deeper than the whole. -/
theorem nesting_le_of_sublist {ts us : List Token} (h : ts <:+: us) :
    nesting 0 (ts.map Token.type) ≤ nesting 0 (us.map Token.type) := by
  rcases h with ⟨before, after, rfl⟩
  rw [List.map_append, List.map_append]
  exact Nat.le_trans (nesting_append_right 0 _ _) (nesting_append_left 0 _ _)

/-! ## The two stacks under the evaluator -/

/-- From every state, `x` does what `y` does, or runs out of the stack's block at a nesting of
`n`. -/
def Agrees {α : Type} (n : Nat) (x y : OnEval α) : Prop :=
  ∀ s, x s = y s ∨ (stackInitSize ≤ n ∧ ∃ s', x s = .error .bounds s')

namespace Agrees

variable {α β : Type} {m n : Nat}

theorem refl (x : OnEval α) : Agrees n x x := fun _ => Or.inl rfl

theorem mono (hmn : m ≤ n) {x y : OnEval α} (h : Agrees m x y) : Agrees n x y := by
  intro s
  rcases h s with heq | ⟨hm, herr⟩
  · exact Or.inl heq
  · exact Or.inr ⟨Nat.le_trans hm hmn, herr⟩

theorem bind {x y : OnEval α} {f g : α → OnEval β} (hx : Agrees n x y)
    (hf : ∀ a, Agrees n (f a) (g a)) : Agrees n (x >>= f) (y >>= g) := by
  intro s
  rcases hx s with heq | ⟨hn, s', herr⟩
  · cases hrun : y s with
    | ok a s' =>
        rw [hrun] at heq
        rw [bind_ok heq, bind_ok hrun]
        exact hf a s'
    | error e s' =>
        rw [hrun] at heq
        rw [bind_error heq, bind_error hrun]
        exact Or.inl rfl
  · exact Or.inr ⟨hn, s', bind_error herr⟩

theorem ite {c : Prop} [Decidable c] {x y x' y' : OnEval α} (hx : Agrees n x y)
    (hy : Agrees n x' y') : Agrees n (if c then x else x') (if c then y else y') := by
  by_cases hc : c
  · simpa [hc] using hx
  · simpa [hc] using hy

end Agrees

theorem checkSegment_agrees (ts : List TokenType) :
    Agrees (nesting 0 ts) (checkSegment codeStack ts) (checkSegment lifo ts) := by
  intro s
  unfold checkSegment
  by_cases hends : ts.head? ≠ some .lparen ∨ ts.getLast? ≠ some .rparen
  · simp only [if_pos hends, true_or]
  · simp only [if_neg hends]
    have hinit : codeStack.init.Holds lifo.init := Stack.Holds.init _
    rcases checkParenthesesLoop_sim 0 0 ts hinit s with
      ⟨flag, S, L, s', hcode, hlifo, hS⟩ | ⟨hdeep, s', herr⟩
    · left
      have hempty : codeStack.isEmpty S = lifo.isEmpty L := hS.stackEmpty
      rw [bind_ok hcode, bind_ok hlifo, hempty]
    · right
      exact ⟨hdeep, s', bind_error herr⟩

/-- A surrounded list was scanned to its end. -/
theorem checkSegment_true_nesting {ts : List TokenType} {s s' : EvalState}
    (h : checkSegment codeStack ts s = .ok true s') : nesting 0 ts < stackInitSize := by
  unfold checkSegment at h
  by_cases hends : ts.head? ≠ some .lparen ∨ ts.getLast? ≠ some .rparen
  · rw [if_pos hends] at h
    cases h
  · rw [if_neg hends] at h
    rcases bind_eq_ok.1 h with ⟨⟨flag, S⟩, s₁, hloop, hrest⟩
    cases flag with
    | true => exact checkParenthesesLoop_true_nesting (Stack.Holds.init _) hloop
    | false => cases hrest

theorem evalSegment_agrees (cpu : CPUState) (l : List Token) :
    Agrees (nesting 0 (l.map Token.type)) (evalSegment codeStack cpu l)
      (evalSegment lifo cpu l) := by
  induction l using segment_induction with
  | nil =>
      rw [evalSegment, evalSegment]
      exact Agrees.refl _
  | single t =>
      rw [evalSegment, evalSegment]
      exact Agrees.refl _
  | split l hlen ihIn ihLeft ihRight =>
      rcases exists_dominated hlen with ⟨op, hop⟩
      -- each part is a piece of the list, and nests no deeper
      have hdrop : l.tail.dropLast <+: l.tail := List.dropLast_prefix _
      have hin : l.tail.dropLast <:+: l := hdrop.isInfix.trans (List.tail_suffix l).isInfix
      have hleft : l.take (dominatedOffset l) <+: l := List.take_prefix _ l
      have hright : l.drop (dominatedOffset l + 1) <:+: l := (List.drop_suffix _ l).isInfix
      rw [evalSegment_split codeStack cpu hlen hop, evalSegment_split lifo cpu hlen hop]
      refine (checkSegment_agrees _).bind fun surrounded => ?_
      refine Agrees.ite (ihIn.mono (nesting_le_of_sublist hin)) (Agrees.ite ?_ ?_)
      · refine (ihLeft.mono (nesting_le_of_sublist hleft.isInfix)).bind fun val1 => ?_
        refine (ihRight.mono (nesting_le_of_sublist hright)).bind fun val2 => ?_
        exact Agrees.refl _
      · refine (ihRight.mono (nesting_le_of_sublist hright)).bind fun val1 => ?_
        exact Agrees.refl _

end Nemu
