import Nemu.Expr.Segment

/-!
# Well-bracketed token lists

`Nested k ts`: the round brackets of `ts` are balanced, no other bracket occurs, and every operator
outside all brackets has priority `k` or more.  On such lists the two scans of the evaluator are
computed here: `checkSegment` recognises exactly the surrounding pair, and the dominated operator
is the last one of the lowest priority outside the brackets.
-/

namespace Nemu

open StateRules

inductive Nested : Nat → List TokenType → Prop where
  | nil (k : Nat) : Nested k []
  | token {k : Nat} {t : TokenType} {ts : List TokenType} :
      t.isOpen = false → t.opener? = none → (∀ j, t.priority = some j → k ≤ j) →
        Nested k ts → Nested k (t :: ts)
  | group {k : Nat} {ts us : List TokenType} :
      Nested 0 ts → Nested k us → Nested k (.lparen :: (ts ++ .rparen :: us))

/-! ## Positions -/

/-- What follows a group. -/
theorem group_append (ts us' us : List TokenType) :
    TokenType.lparen :: (ts ++ .rparen :: us') ++ us =
      .lparen :: (ts ++ .rparen :: (us' ++ us)) := by
  simp

theorem add_length_cons (i : Int) (t : TokenType) (ts : List TokenType) :
    i + ((t :: ts).length : Int) = i + 1 + ts.length := by
  rw [List.length_cons]
  omega

theorem add_length_group (i : Int) (ts us' : List TokenType) :
    i + ((TokenType.lparen :: (ts ++ .rparen :: us')).length : Int) =
      i + 1 + ts.length + 1 + us'.length := by
  simp only [List.length_cons, List.length_append]
  omega

/-! ## Building lists -/

namespace Nested

theorem mono {j k : Nat} {ts : List TokenType} (hjk : j ≤ k) (h : Nested k ts) : Nested j ts := by
  induction h with
  | nil k =>
      exact .nil j
  | token ho hc hp _ ih =>
      exact .token ho hc (fun i hi => Nat.le_trans hjk (hp i hi)) (ih hjk)
  | group hin _ _ ih =>
      exact .group hin (ih hjk)

theorem append {k : Nat} {ts us : List TokenType} (h : Nested k ts) (h' : Nested k us) :
    Nested k (ts ++ us) := by
  induction h with
  | nil k =>
      exact h'
  | token ho hc hp _ ih =>
      exact .token ho hc hp (ih h')
  | @group k ts us' hin _ _ ih =>
      rw [group_append]
      exact .group hin (ih h')

theorem surround {ts : List TokenType} (h : Nested 0 ts) (k : Nat) :
    Nested k (.lparen :: (ts ++ [.rparen])) :=
  .group h (.nil k)

/-- An operator between two lists that have no operator of lower priority. -/
theorem operator {k : Nat} {t : TokenType} {ts us : List TokenType} (h : Nested k ts)
    (ht : t.priority = some k) (h' : Nested k us) : Nested k (ts ++ t :: us) := by
  refine h.append (.token ?_ ?_ ?_ h')
  · cases t <;> simp [TokenType.priority] at ht <;> rfl
  · cases t <;> simp [TokenType.priority] at ht <;> rfl
  · intro j hj
    rw [ht] at hj
    cases hj
    exact Nat.le_refl k

end Nested

/-! ## The bracket scan -/

section Scan

variable (p i : Int)

/-- Under an open bracket the scan passes over a well-bracketed list. -/
theorem checkParenthesesLoop_nested {ts : List TokenType} {k : Nat} (h : Nested k ts)
    (us : List TokenType) {S : List TokenType} (hS : S ≠ []) :
    checkParenthesesLoop lifo p i (ts ++ us) S =
      checkParenthesesLoop lifo p (i + ts.length) us S := by
  induction h generalizing i us S with
  | nil k =>
      simp
  | @token k t ts ho hc _ _ ih =>
      rw [List.cons_append, checkParenthesesLoop_other lifo p i _ S ho hc, ih (i + 1) us hS, add_length_cons]
  | @group k ts us' _ _ ihIn ihRest =>
      -- the bracket that the caller is inside of is still on the stack
      have hempty : (!lifo.isEmpty S || i == p) = true := by
        simp [lifo, hS]
      rw [group_append, checkParenthesesLoop_open lifo p i _ S rfl, if_pos hempty, add_length_group]
      change checkParenthesesLoop lifo p (i + 1) (ts ++ .rparen :: (us' ++ us)) (.lparen :: S) = _
      rw [ihIn (i + 1) (.rparen :: (us' ++ us)) (by simp),
        checkParenthesesLoop_close lifo p _ _ _ rfl]
      change checkParenthesesLoop lifo p (i + 1 + ts.length + 1) (us' ++ us) S = _
      exact ihRest _ us hS

/-- After the stack has run empty, the next opening bracket ends the scan with flag 0. -/
theorem checkParenthesesLoop_reopen {ts : List TokenType} {k : Nat} (h : Nested k ts) (hi : p < i)
    (hlast : ts.getLast? = some .rparen) (s : EvalState) :
    checkParenthesesLoop lifo p i ts [] s = .ok (false, []) s := by
  induction h generalizing i with
  | nil k =>
      simp at hlast
  | @token k t ts ho hc _ _ ih =>
      cases ts with
      | nil =>
          simp only [List.getLast?_singleton, Option.some.injEq] at hlast
          subst hlast
          simp [TokenType.opener?] at hc
      | cons u ts =>
          rw [checkParenthesesLoop_other lifo p i _ _ ho hc]
          refine ih (i + 1) (by omega) ?_
          rwa [List.getLast?_cons_cons] at hlast
  | group _ _ _ _ =>
      -- an opening bracket on an empty stack, behind the first position
      have hnot : ¬ (!lifo.isEmpty [] || i == p) = true := by
        simp only [lifo, List.isEmpty_nil, Bool.not_true, Bool.false_or, beq_iff_eq]
        omega
      rw [checkParenthesesLoop_open lifo p i _ _ rfl, if_neg hnot]
      rfl

end Scan

/-- A surrounded list is recognised, with the state unchanged. -/
theorem checkSegment_surround {ts : List TokenType} (h : Nested 0 ts) (s : EvalState) :
    checkSegment lifo (.lparen :: (ts ++ [.rparen])) s = .ok true s := by
  have hlast : (TokenType.lparen :: (ts ++ [.rparen])).getLast? = some .rparen := by
    rw [← List.cons_append, List.getLast?_concat]
  have hloop : checkParenthesesLoop lifo 0 0 (.lparen :: (ts ++ [.rparen])) lifo.init s =
      .ok (true, []) s := by
    rw [checkParenthesesLoop_open lifo 0 0 _ _ rfl, if_pos (by rfl)]
    change checkParenthesesLoop lifo 0 (0 + 1) (ts ++ [.rparen]) [.lparen] s = _
    rw [checkParenthesesLoop_nested 0 _ h [.rparen] (by simp)]
    rfl
  simp only [checkSegment, hlast, List.head?_cons, ne_eq, not_true_eq_false, or_self, if_false]
  rw [bind_ok hloop]
  rfl

/-- A well-bracketed list with a token outside its brackets is not surrounded. -/
theorem checkSegment_split {ts us : List TokenType} {t : TokenType} {j k : Nat}
    (h : Nested j ts) (ho : t.isOpen = false) (hc : t.opener? = none) (h' : Nested k us)
    (s : EvalState) : checkSegment lifo (ts ++ t :: us) s = .ok false s := by
  have htail : Nested 0 (t :: us) :=
    .token ho hc (fun i _ => Nat.zero_le i) (h'.mono (Nat.zero_le k))
  by_cases hends : (ts ++ t :: us).head? ≠ some .lparen ∨ (ts ++ t :: us).getLast? ≠ some .rparen
  · simp only [checkSegment, if_pos hends]
    rfl
  · simp only [not_or, not_not] at hends
    cases h with
    | nil k =>
        simp only [List.nil_append, List.head?_cons, Option.some.injEq] at hends
        rw [hends.1] at ho
        cases ho
    | token ho' _ _ _ =>
        simp only [List.cons_append, List.head?_cons, Option.some.injEq] at hends
        rw [hends.1] at ho'
        cases ho'
    | @group k ts₁ ts₂ hin hrest =>
        -- the bracket at the start closes before `t`, and another one opens behind it
        have hlast : (ts₂ ++ t :: us).getLast? = some .rparen := by
          have hends' := hends.2
          rw [List.getLast?_append] at hends' ⊢
          cases hx : (t :: us).getLast? with
          | none => simp at hx
          | some x => simpa [hx] using hends'
        have hloop : checkParenthesesLoop lifo 0 0
            (.lparen :: (ts₁ ++ .rparen :: (ts₂ ++ t :: us))) lifo.init s = .ok (false, []) s := by
          rw [checkParenthesesLoop_open lifo 0 0 _ _ rfl, if_pos (by rfl)]
          change checkParenthesesLoop lifo 0 (0 + 1) (ts₁ ++ .rparen :: (ts₂ ++ t :: us))
            [.lparen] s = _
          rw [checkParenthesesLoop_nested 0 _ hin _ (by simp),
            checkParenthesesLoop_close lifo 0 _ _ _ rfl]
          change checkParenthesesLoop lifo 0 (0 + 1 + ts₁.length + 1) (ts₂ ++ t :: us) [] s = _
          exact checkParenthesesLoop_reopen 0 _ ((hrest.mono (Nat.zero_le _)).append htail)
            (by omega) hlast s
        simp only [checkSegment, hends, ne_eq, not_true_eq_false, or_self, if_false]
        rw [group_append, bind_ok hloop]
        rfl

/-! ## The operator scan -/

section Dominated

variable (position op : Int) (pr : Nat)

/-- Inside brackets no operator is taken. -/
theorem findDominatedOpLoop_inside {ts : List TokenType} {k : Nat} (h : Nested k ts)
    (us : List TokenType) {n : Int} (hn : 0 < n) :
    findDominatedOpLoop position (ts ++ us) op pr n =
      findDominatedOpLoop (position + ts.length) us op pr n := by
  induction h generalizing position us n with
  | nil k =>
      simp
  | @token k t ts ho hc _ _ ih =>
      have hstep : findDominatedOpLoop position (t :: (ts ++ us)) op pr n =
          findDominatedOpLoop (position + 1) (ts ++ us) op pr n := by
        -- inside brackets no operator is taken
        rcases t.scan_cases with rfl | rfl | ⟨j, hj, -⟩ | ⟨hl, hr, hj⟩
        · cases ho
        · cases hc
        · rw [findDominatedOpLoop_operator _ _ _ _ _ hj, if_neg (by omega)]
        · exact findDominatedOpLoop_skip _ _ _ _ _ hl hr hj
      rw [List.cons_append, hstep, ih (position + 1) us hn, add_length_cons]
  | @group k ts us' _ _ ihIn ihRest =>
      have hback : n + 1 - 1 = n := by omega
      rw [group_append, findDominatedOpLoop_lparen, ihIn (position + 1) _ (by omega),
        findDominatedOpLoop_rparen, hback, ihRest _ us hn, add_length_group]

/-- A whole bracketed group is passed over. -/
theorem findDominatedOpLoop_group {ts : List TokenType} {k : Nat} (h : Nested k ts)
    (us : List TokenType) :
    findDominatedOpLoop position (.lparen :: (ts ++ .rparen :: us)) op pr 0 =
      findDominatedOpLoop (position + ts.length + 2) us op pr 0 := by
  have hlen : position + 1 + (ts.length : Int) + 1 = position + ts.length + 2 := by omega
  rw [findDominatedOpLoop_lparen, findDominatedOpLoop_inside _ _ _ h _ (by omega),
    findDominatedOpLoop_rparen, hlen]
  rfl

/-- Operators of higher priority number than the current one are not taken. -/
theorem findDominatedOpLoop_keep {ts : List TokenType} {k : Nat} (h : Nested k ts) (hpr : pr < k)
    (us : List TokenType) :
    findDominatedOpLoop position (ts ++ us) op pr 0 =
      findDominatedOpLoop (position + ts.length) us op pr 0 := by
  induction h generalizing position us with
  | nil k =>
      simp
  | @token k t ts ho hc hp _ ih =>
      have hstep : findDominatedOpLoop position (t :: (ts ++ us)) op pr 0 =
          findDominatedOpLoop (position + 1) (ts ++ us) op pr 0 := by
        -- its priority is too high to be taken
        rcases t.scan_cases with rfl | rfl | ⟨j, hj, -⟩ | ⟨hl, hr, hj⟩
        · cases ho
        · cases hc
        · have hjk := hp j hj
          rw [findDominatedOpLoop_operator _ _ _ _ _ hj, if_neg (by omega)]
        · exact findDominatedOpLoop_skip _ _ _ _ _ hl hr hj
      rw [List.cons_append, hstep, ih (position + 1) hpr us, add_length_cons]
  | @group k ts us' hin _ _ ihRest =>
      have hlen : position + ((TokenType.lparen :: (ts ++ .rparen :: us')).length : Int) =
          position + ts.length + 2 + us'.length := by
        rw [add_length_group]
        omega
      rw [group_append, findDominatedOpLoop_group _ _ _ hin, ihRest _ hpr us, hlen]

/-- Over a list with priorities from `k` on, the current priority stays at `k` or more. -/
theorem findDominatedOpLoop_bound {ts : List TokenType} {k : Nat} (h : Nested k ts) (hpr : k ≤ pr)
    (us : List TokenType) :
    ∃ op' pr', k ≤ pr' ∧ findDominatedOpLoop position (ts ++ us) op pr 0 =
      findDominatedOpLoop (position + ts.length) us op' pr' 0 := by
  induction h generalizing position op pr us with
  | nil k =>
      exact ⟨op, pr, hpr, by simp⟩
  | @token k t ts ho hc hp _ ih =>
      rw [List.cons_append, add_length_cons]
      -- taken or not, the priority that is kept is at least `k`
      rcases t.scan_cases with rfl | rfl | ⟨j, hj, -⟩ | ⟨hl, hr, hj⟩
      · cases ho
      · cases hc
      · rw [findDominatedOpLoop_operator _ _ _ _ _ hj]
        by_cases htake : (0 : Int) = 0 ∧ j ≤ pr
        · rw [if_pos htake]
          exact ih (position + 1) position j (hp j hj) us
        · rw [if_neg htake]
          exact ih (position + 1) op pr hpr us
      · rw [findDominatedOpLoop_skip _ _ _ _ _ hl hr hj]
        exact ih (position + 1) op pr hpr us
  | @group k ts us' hin _ _ ihRest =>
      have hlen : position + ((TokenType.lparen :: (ts ++ .rparen :: us')).length : Int) =
          position + ts.length + 2 + us'.length := by
        rw [add_length_group]
        omega
      rw [group_append, findDominatedOpLoop_group _ _ _ hin, hlen]
      exact ihRest _ op pr hpr us

end Dominated

/-- The operator with no lower priority before it and only higher ones after it is taken. -/
theorem dominatedOffset_split {ts us : List Token} {t : Token} {k : Nat}
    (ht : t.type.priority = some k) (h : Nested k (ts.map Token.type))
    (h' : Nested (k + 1) (us.map Token.type)) :
    dominatedOffset (ts ++ t :: us) = ts.length := by
  have hk : k ≤ 100 := by
    rcases t.type.scan_cases with hl | hr | ⟨j, hj, hj5⟩ | ⟨_, _, hn⟩
    · rw [hl] at ht
      cases ht
    · rw [hr] at ht
      cases ht
    · rw [ht] at hj
      cases hj
      omega
    · rw [hn] at ht
      cases ht
  -- over the left part nothing of a lower priority is found, and `t` takes over
  rcases findDominatedOpLoop_bound 0 0 100 h hk (t.type :: us.map Token.type) with
    ⟨op, pr, hpr, hloop⟩
  -- nothing on the right takes over from it
  have hkeep := findDominatedOpLoop_keep (0 + (ts.map Token.type).length + 1)
    (0 + (ts.map Token.type).length) k h' (Nat.lt_succ_self k) []
  rw [List.append_nil] at hkeep
  rw [dominatedOffset, List.map_append, List.map_cons, hloop,
    findDominatedOpLoop_operator _ _ _ _ _ ht, if_pos ⟨rfl, hpr⟩, hkeep]
  simp [findDominatedOpLoop]

/-! ## Nesting -/

theorem Nested.nesting_append {k : Nat} {ts : List TokenType} (h : Nested k ts) (n : Nat)
    (us : List TokenType) : nesting n (ts ++ us) = max (nesting n ts) (nesting n us) := by
  induction h generalizing n us with
  | nil k =>
      exact (Nat.max_eq_right (le_nesting n us)).symm
  | @token k t ts ho hc _ _ ih =>
      rw [List.cons_append, nesting, nesting, openAfter_other n ho hc, ih, Nat.max_assoc]
  | @group k ts us' _ _ ihIn ihRest =>
      have hopen : openAfter n .lparen = n + 1 := rfl
      have hclose : openAfter (n + 1) .rparen = n := rfl
      rw [group_append, nesting, nesting, hopen, ihIn, ihIn, nesting, nesting, hclose, ihRest]
      omega

/-- An operator outside all brackets. -/
theorem Nested.nesting_split {j k : Nat} {ts us : List TokenType} {t : TokenType}
    (h : Nested j ts) (ht : t.priority = some k) :
    nesting 0 (ts ++ t :: us) = max (nesting 0 ts) (nesting 0 us) := by
  have hafter : openAfter 0 t = 0 := by
    cases t <;> simp [TokenType.priority] at ht <;> rfl
  rw [h.nesting_append, nesting, hafter, Nat.zero_max]

end Nemu
