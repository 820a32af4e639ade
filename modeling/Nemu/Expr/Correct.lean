import Nemu.Expr.EvalOver
import Nemu.Expr.Grammar

/-!
# The evaluator computes the value of an expression

For every token list that spells an arithmetic expression, `eval` returns its value modulo 2^32, or
clears the flag when a division in it has a zero divisor.  The proof is by induction on the
spelling; the two scans were computed in `Nemu.Expr.Nested`.
-/

namespace Nemu

open StateRules

/-! ## Literals -/

theorem decimal_eq_numeral {ds : List Char} (h : ∀ c ∈ ds, isDecDigit c = true) :
    decimal ds = BitVec.ofNat 32 (numeral 10 ds) := by
  -- the loop of the source and the numeral agree from every intermediate value on
  have hfold : ∀ n : Nat, ds.foldl
      (fun number c => number * 10 + (BitVec.ofNat 32 c.toNat - 48)) (BitVec.ofNat 32 n) =
        BitVec.ofNat 32 (ds.foldl (fun n c => n * 10 + digitValue c) n) := by
    induction ds with
    | nil =>
        intro n
        rfl
    | cons c ds ih =>
        intro n
        have hc := h c (by simp)
        simp only [isDecDigit, Bool.and_eq_true, decide_eq_true_eq] at hc
        have hge : 48 ≤ c.toNat := hc.1
        have hle : c ≤ '9' := hc.2
        have hdigit : BitVec.ofNat 32 c.toNat - 48 = BitVec.ofNat 32 (digitValue c) := by
          rw [digitValue, if_pos hle]
          exact (BitVec.ofNat_sub_ofNat_of_le c.toNat 48 (by decide) hge)
        simp only [List.foldl_cons, hdigit]
        rw [← ih (fun d hd => h d (by simp [hd]))]
        congr 1
        rw [BitVec.ofNat_add, BitVec.ofNat_mul]
        rfl
  exact hfold 0

theorem hexDigit_eq {c : Char} (h : isHexDigit c = true) :
    hexDigit c = some (BitVec.ofNat 32 (digitValue c)) := by
  have hle : ∀ a b : Char, a ≤ b ↔ a.toNat ≤ b.toNat := fun _ _ => Iff.rfl
  simp only [isHexDigit, isLowerHexDigit, isDecDigit, Bool.or_eq_true, Bool.and_eq_true,
    decide_eq_true_eq, hle] at h
  simp only [hexDigit, digitValue, hle]
  change (48 ≤ c.toNat ∧ c.toNat ≤ 57 ∨ 97 ≤ c.toNat ∧ c.toNat ≤ 102) ∨
    65 ≤ c.toNat ∧ c.toNat ≤ 70 at h
  change (if 48 ≤ c.toNat ∧ c.toNat ≤ 57 then some (BitVec.ofNat 32 (c.toNat - 48))
    else if 97 ≤ c.toNat ∧ c.toNat ≤ 102 then some (BitVec.ofNat 32 (c.toNat - 97) + 10)
    else if 65 ≤ c.toNat ∧ c.toNat ≤ 70 then some (BitVec.ofNat 32 (c.toNat - 65) + 10)
    else none) = some (BitVec.ofNat 32 (if c.toNat ≤ 57 then c.toNat - 48
      else if c.toNat ≤ 70 then c.toNat - 55 else c.toNat - 87))
  rcases h with (⟨h1, h2⟩ | ⟨h1, h2⟩) | ⟨h1, h2⟩
  · -- the three ranges of characters in turn
    rw [if_pos ⟨h1, h2⟩, if_pos h2]
  · rw [if_neg (by omega), if_pos ⟨h1, h2⟩, if_neg (by omega), if_neg (by omega)]
    have hval : c.toNat - 97 + 10 = c.toNat - 87 := by omega
    rw [← hval, BitVec.ofNat_add]
    rfl
  · rw [if_neg (by omega), if_neg (by omega), if_pos ⟨h1, h2⟩, if_neg (by omega), if_pos h2]
    have hval : c.toNat - 65 + 10 = c.toNat - 55 := by omega
    rw [← hval, BitVec.ofNat_add]
    rfl

theorem isHexDigit_ne {c d : Char} (h : isHexDigit c = true) (hd : isHexDigit d = false) :
    c ≠ d := by
  rintro rfl
  rw [h] at hd
  cases hd

theorem htoiLoop_digit {c : Char} {s : List Char} {v : Word} (n : Word) (hnewline : c ≠ '\n')
    (hx : ¬ (c = '0' ∧ (s.head? = some 'x' ∨ s.head? = some 'X')))
    (hv : hexDigit c = some v) : htoiLoop n (c :: s) = htoiLoop (n * 16 + v) s := by
  rw [htoiLoop.eq_def]
  simp only [if_neg hnewline, if_neg hx, hv]

/-- On digits alone the loop of `htoi` is the usual conversion. -/
theorem htoiLoop_digits {ds : List Char} (h : ∀ c ∈ ds, isHexDigit c = true) (n : Nat) :
    htoiLoop (BitVec.ofNat 32 n) ds =
      BitVec.ofNat 32 (ds.foldl (fun n c => n * 16 + digitValue c) n) := by
  induction ds generalizing n with
  | nil =>
      rfl
  | cons c ds ih =>
      have hc := h c (by simp)
      have hds : ∀ d ∈ ds, isHexDigit d = true := fun d hd => h d (by simp [hd])
      have hnewline : c ≠ '\n' := isHexDigit_ne hc (by decide)
      have hhead : ¬ (ds.head? = some 'x' ∨ ds.head? = some 'X') := by
        rintro (hx | hx)
        · exact isHexDigit_ne (hds _ (List.mem_of_mem_head? hx)) (by decide) rfl
        · exact isHexDigit_ne (hds _ (List.mem_of_mem_head? hx)) (by decide) rfl
      have hstep : BitVec.ofNat 32 n * 16 + BitVec.ofNat 32 (digitValue c) =
          BitVec.ofNat 32 (n * 16 + digitValue c) := by
        rw [BitVec.ofNat_add, BitVec.ofNat_mul]
        rfl
      rw [htoiLoop_digit _ hnewline (fun hx => hhead hx.2) (hexDigit_eq hc), hstep, ih hds,
        List.foldl_cons]

/-- A literal with the `0x` in front converts to its value. -/
theorem htoi_literal {ds : List Char} (hne : ds ≠ []) (h : ∀ c ∈ ds, isHexDigit c = true) :
    htoi ('0' :: 'x' :: ds) = BitVec.ofNat 32 (numeral 16 ds) := by
  cases ds with
  | nil =>
      exact absurd rfl hne
  | cons d ds =>
      have hd := h d (by simp)
      have hds : ∀ c ∈ ds, isHexDigit c = true := fun c hc => h c (by simp [hc])
      have hx : ('0' = '0') ∧ (('x' :: d :: ds).head? = some 'x' ∨
          ('x' :: d :: ds).head? = some 'X') := ⟨rfl, Or.inl rfl⟩
      have hstart : (0 : Word) * 16 + BitVec.ofNat 32 (digitValue d) =
          BitVec.ofNat 32 (digitValue d) := by simp
      rw [htoi, htoiLoop, if_neg (by decide), if_pos hx]
      simp only [hexDigit_eq hd, hstart]
      rw [htoiLoop_digits hds]
      simp [numeral]

/-! ## Operators -/

theorem applyOp_some {op : BinOp} {x y v : Word} (h : op.apply x y = some v) (s : EvalState) :
    applyOp op.type x y s = .ok v s := by
  cases op with
  | add | sub | mul =>
      simp only [BinOp.apply, Option.some.injEq] at h
      simp [applyOp, BinOp.type, h]
  | div =>
      by_cases hy : y = 0
      · simp [BinOp.apply, hy] at h
      · simp only [BinOp.apply, if_neg hy, Option.some.injEq] at h
        simp only [applyOp, BinOp.type, if_neg hy, h]
        rfl
  | eq =>
      simp only [BinOp.apply, Option.some.injEq] at h
      by_cases hxy : x = y
      · simp [applyOp, BinOp.type, ofBool, hxy, ← h]
      · simp [applyOp, BinOp.type, ofBool, hxy, ← h]
  | ne =>
      simp only [BinOp.apply, Option.some.injEq] at h
      by_cases hxy : x = y
      · simp [applyOp, BinOp.type, ofBool, hxy, ← h]
      · simp [applyOp, BinOp.type, ofBool, hxy, ← h]
  | and =>
      simp only [BinOp.apply, Option.some.injEq] at h
      simp [applyOp, BinOp.type, ofBool, ← h]
  | or =>
      simp only [BinOp.apply, Option.some.injEq] at h
      simp [applyOp, BinOp.type, ofBool, ← h]

/-- An operator without a value is a division by zero: it counts as 0. -/
theorem applyOp_zero {op : BinOp} {x y : Word} (h : op.apply x y = none) (s : EvalState) :
    ∃ messages, applyOp op.type x y s = .ok 0 ⟨0, s.bus, messages⟩ := by
  cases op with
  | div =>
      by_cases hy : y = 0
      · refine ⟨s.messages ++ [.divisionByZero], ?_⟩
        simp only [applyOp, BinOp.type, hy, if_true]
        rfl
      · simp only [BinOp.apply, if_neg hy] at h
        cases h
  | add | sub | mul | eq | ne | and | or =>
      simp [BinOp.apply] at h

theorem applyOp_none {op : BinOp} {x y : Word} (h : op.apply x y = none) (s : EvalState) :
    ∃ v s', applyOp op.type x y s = .ok v s' ∧ s'.success = 0 ∧ s'.bus = s.bus := by
  rcases applyOp_zero h s with ⟨messages, hrun⟩
  exact ⟨0, _, hrun, rfl, rfl⟩

/-- Once cleared, the flag stays cleared through an operator. -/
theorem applyOp_failed (op : BinOp) (x y : Word) {s : EvalState} (hs : s.success = 0) :
    ∃ v s', applyOp op.type x y s = .ok v s' ∧ s'.success = 0 ∧ s'.bus = s.bus := by
  cases h : op.apply x y with
  | some v =>
      exact ⟨v, s, applyOp_some h s, hs, rfl⟩
  | none =>
      exact applyOp_none h s

/-! ## Expressions -/

/-- What an evaluation owes to a value: it returns it with the state unchanged, or, when there is
none, it returns with the flag cleared.  Memory is not touched. -/
structure Evaluates (x : OnEval Word) (value : Option Word) : Prop where
  some : ∀ v, value = some v → ∀ s, x s = .ok v s
  none : value = none → ∀ s, ∃ v s', x s = .ok v s' ∧ s'.success = 0 ∧ s'.bus = s.bus

/-- Both operands are evaluated, also when the first one fails. -/
theorem Evaluates.bin {x y : OnEval Word} {a b : Arith} (op : BinOp) (hx : Evaluates x a.value)
    (hy : Evaluates y b.value) :
    Evaluates (x >>= fun val1 => y >>= fun val2 => applyOp op.type val1 val2)
      (Arith.bin op a b).value := by
  cases ha : a.value with
  | some v =>
      cases hb : b.value with
      | some w =>
          constructor
          · intro r hr s
            simp only [Arith.value, ha, hb] at hr
            rw [bind_ok (hx.some v ha s), bind_ok (hy.some w hb s)]
            exact applyOp_some hr s
          · intro hr s
            simp only [Arith.value, ha, hb] at hr
            rw [bind_ok (hx.some v ha s), bind_ok (hy.some w hb s)]
            exact applyOp_none hr s
      | none =>
          constructor
          · intro r hr
            simp [Arith.value, ha, hb] at hr
          · intro _ s
            rcases hy.none hb s with ⟨w, s₁, hrun, hflag, hbus⟩
            rcases applyOp_failed op v w hflag with ⟨r, s₂, hop, hflag', hbus'⟩
            refine ⟨r, s₂, ?_, hflag', hbus'.trans hbus⟩
            rw [bind_ok (hx.some v ha s), bind_ok hrun]
            exact hop
  | none =>
      constructor
      · intro r hr
        simp [Arith.value, ha] at hr
      · intro _ s
        rcases hx.none ha s with ⟨v, s₁, hrun, hflag, hbus⟩
        -- the second operand starts with the flag already cleared
        have hsecond : ∃ w s₂, y s₁ = .ok w s₂ ∧ s₂.success = 0 ∧ s₂.bus = s₁.bus := by
          cases hb : b.value with
          | some w =>
              exact ⟨w, s₁, hy.some w hb s₁, hflag, rfl⟩
          | none =>
              exact hy.none hb s₁
        rcases hsecond with ⟨w, s₂, hrun', hflag', hbus'⟩
        rcases applyOp_failed op v w hflag' with ⟨r, s₃, hop, hflag'', hbus''⟩
        refine ⟨r, s₃, ?_, hflag'', hbus''.trans (hbus'.trans hbus)⟩
        rw [bind_ok hrun, bind_ok hrun']
        exact hop

theorem Evaluates.of_run {x : OnEval Word} {v : Word} (h : ∀ s, x s = .ok v s) :
    Evaluates x (.some v) := by
  constructor
  · intro w hw s
    cases hw
    exact h s
  · intro hnone
    cases hnone

/-- Over an unbounded stack, the evaluation of a spelling gives the value of its tree. -/
theorem Spells.evaluates (cpu : CPUState) {k : Nat} {e : Arith} {ts : List Token}
    (h : Spells k e ts) : Evaluates (evalSegment lifo cpu ts) e.value := by
  induction h with
  | @dec t ht _ hdigits =>
      refine .of_run fun s => ?_
      rw [evalSegment]
      simp only [evalLeaf, ht, decimal_eq_numeral hdigits]
      rfl
  | @hex t digits ht hstr hne hdigits =>
      refine .of_run fun s => ?_
      rw [evalSegment]
      simp only [evalLeaf, ht, hstr, htoi_literal hne hdigits]
      rfl
  | @paren o c e ts ho hin hc ih =>
      -- the outer brackets are taken off and nothing else is done
      rcases evalOver_paren (plainOps lifo cpu) o c ts with ⟨f, hsplit⟩
      have hstep : evalSegment lifo cpu (o :: (ts ++ [c])) = evalSegment lifo cpu ts := by
        funext s
        have hcheck : (plainOps lifo cpu).check ((o :: (ts ++ [c])).map Token.type) s =
            .ok true s := Spells.checkSegment_paren ho hin hc s
        rw [evalSegment_eq_evalOver, hsplit, bind_ok hcheck, if_pos rfl, evalSegment_eq_evalOver]
      rw [hstep]
      exact ih
  | @bin op t a b ts us hleft ht hright iha ihb =>
      -- `find_dominated_op` finds the operator of the rule
      have hsplit := evalOver_at (plainOps lifo cpu) (ht ▸ op.priority_type) hleft.nested
        hright.nested hright.ne_nil
      have hstep : evalSegment lifo cpu (ts ++ t :: us) =
          (evalSegment lifo cpu ts >>= fun val1 => evalSegment lifo cpu us >>= fun val2 =>
            applyOp op.type val1 val2) := by
        funext s
        have hcheck : (plainOps lifo cpu).check ((ts ++ t :: us).map Token.type) s =
            .ok false s := Spells.checkSegment_bin hleft ht hright s
        simp only [evalSegment_eq_evalOver]
        rw [hsplit, bind_ok hcheck, ht, if_neg (by decide), if_pos op.type_scan.2.2]
        rfl
      rw [hstep]
      exact iha.bin op ihb
  | up _ ih =>
      exact ih

/-- `eval` on a spelling nested less than 100 deep: the run over the source's stack is the one
over the unbounded stack. -/
theorem eval_of_nesting (cpu : CPUState) (tokens : Nat → Token) (p q : Int)
    (h : nesting 0 ((segment tokens p q).map Token.type) < 100) (s : EvalState) :
    eval cpu tokens p q s = evalSegment lifo cpu (segment tokens p q) s := by
  rw [eval_eq_evalSegment]
  rcases evalSegment_agrees cpu (segment tokens p q) s with heq | ⟨hdeep, -⟩
  · exact heq
  · have hsize : stackInitSize = 100 := rfl
    omega

/-- `eval` returns the value of the expression that its token range spells and leaves the flag
set, or ends with the flag cleared when a division in the expression has a zero divisor. -/
theorem eval_spells (cpu : CPUState) (tokens : Nat → Token) (p q : Int) (e : Arith)
    (hspell : Spells 0 e (segment tokens p q))
    (hnest : nesting 0 ((segment tokens p q).map Token.type) < 100) (s : EvalState)
    (hs : s.success = 1) :
    ∃ v s', eval cpu tokens p q s = .ok v s' ∧
      (∀ w, e.value = some w → v = w ∧ s'.success = 1) ∧
      (e.value = none → s'.success = 0) := by
  have heval := hspell.evaluates cpu
  rw [eval_of_nesting cpu tokens p q hnest s]
  cases hv : e.value with
  | some w =>
      refine ⟨w, s, heval.some w hv s, ?_, fun hnone => ?_⟩
      · intro w' hw'
        cases hw'
        exact ⟨rfl, hs⟩
      · cases hnone
  | none =>
      rcases heval.none hv s with ⟨v, s', hrun, hflag, -⟩
      refine ⟨v, s', hrun, fun w' hw' => ?_, fun _ => hflag⟩
      cases hw'

/-- `(1 + 0x2) / 0` ends with the flag cleared. -/
theorem eval_spells_zero_divisor :
    ∃ v s', eval .zero (tokensOf [⟨.lparen, []⟩, ⟨.tkDecimal, ['1']⟩, ⟨.plus, []⟩,
        ⟨.tkHexadecimal, ['0', 'x', '2']⟩, ⟨.rparen, []⟩, ⟨.divide, []⟩, ⟨.tkDecimal, ['0']⟩]) 0 6
        (.start .zero) = .ok v s' ∧ s'.success = 0 := by
  have one : Spells 5 (.dec ['1']) [⟨.tkDecimal, ['1']⟩] :=
    .dec (t := ⟨.tkDecimal, ['1']⟩) rfl (by decide) (List.all_eq_true.1 rfl)
  have two : Spells 5 (.hex ['2']) [⟨.tkHexadecimal, ['0', 'x', '2']⟩] :=
    .hex rfl rfl (by decide) (List.all_eq_true.1 rfl)
  have zero : Spells 5 (.dec ['0']) [⟨.tkDecimal, ['0']⟩] :=
    .dec (t := ⟨.tkDecimal, ['0']⟩) rfl (by decide) (List.all_eq_true.1 rfl)
  have sum := @Spells.bin .add ⟨.plus, []⟩ _ _ _ _ one.up.up rfl two.up
  have group := Spells.paren (o := ⟨.lparen, []⟩) (c := ⟨.rparen, []⟩) rfl sum.up.up.up rfl
  have quotient := @Spells.bin .div ⟨.divide, []⟩ _ _ _ _ group.up rfl zero
  rcases eval_spells .zero (tokensOf [⟨.lparen, []⟩, ⟨.tkDecimal, ['1']⟩, ⟨.plus, []⟩,
      ⟨.tkHexadecimal, ['0', 'x', '2']⟩, ⟨.rparen, []⟩, ⟨.divide, []⟩, ⟨.tkDecimal, ['0']⟩]) 0 6 _
      quotient.up.up.up.up (by decide) (.start .zero) rfl with ⟨v, s', hrun, -, hnone⟩
  exact ⟨v, s', hrun, hnone (by decide)⟩

end Nemu
