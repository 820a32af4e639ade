import Nemu.Expr.Segment
import Nemu.Expr.Lexer

/-!
# Relations that an evaluation keeps

Whatever preorder on evaluator states holds across its primitive effects (logging, clearing the
flag, reading memory) holds across every function of the evaluator.
-/

namespace Nemu

open StateRules

/-- A preorder that holds across the effects of an evaluation.  A division by zero is logged only
together with clearing the flag. -/
class EvalRel (R : EvalState → EvalState → Prop) : Prop extends IsPreorder EvalState R where
  log : ∀ m, m ≠ .divisionByZero → Within R (Nemu.log m)
  clearSuccess : Within R Nemu.clearSuccess
  zeroDivisor : Within R (do
    Nemu.clearSuccess
    Nemu.log .divisionByZero)
  read : ∀ addr len, Within R (liftBus (vaddrRead addr len))

section Functions

variable {R : EvalState → EvalState → Prop} [EvalRel R] {σ : Type} (ops : StackOps σ)

theorem liftStack_within {α : Type} (x : Except Fault α) : Within R (Nemu.liftStack x) := by
  cases x with
  | ok a => exact Within.pure a
  | error e => exact Within.throw e

theorem closeBracket_within (opener : TokenType) (S : σ) :
    Within R (closeBracket ops opener S) := by
  refine Within.bind (liftStack_within _) fun r => ?_
  cases r with
  | some m =>
      refine Within.ite (Within.pure _) ?_
      exact Within.bind EvalRel.clearSuccess fun _ => Within.pure _
  | none =>
      refine (EvalRel.log _ (by decide)).bind fun _ => ?_
      exact Within.bind EvalRel.clearSuccess fun _ => Within.pure _

theorem checkParenthesesLoop_within (p i : Int) (ts : List TokenType) (S : σ) :
    Within R (checkParenthesesLoop ops p i ts S) := by
  induction ts generalizing i S with
  | nil => exact Within.pure _
  | cons e rest ih =>
      cases hopen : e.isOpen with
      | true =>
          rw [checkParenthesesLoop_open ops p i rest S hopen]
          refine Within.ite ?_ (Within.pure _)
          exact Within.bind (liftStack_within _) fun S => ih (i + 1) S
      | false =>
          cases hclose : e.opener? with
          | some o =>
              rw [checkParenthesesLoop_close ops p i rest S hclose]
              refine Within.bind (closeBracket_within ops o S) fun r => ?_
              exact Within.ite (ih (i + 1) r.2) (Within.pure _)
          | none =>
              rw [checkParenthesesLoop_other ops p i rest S hopen hclose]
              exact ih (i + 1) S

theorem checkSegment_within (ts : List TokenType) : Within R (checkSegment ops ts) := by
  unfold checkSegment
  refine Within.ite (Within.pure _) ?_
  exact Within.bind (checkParenthesesLoop_within ops 0 0 ts ops.init)
    fun r => Within.pure _

theorem getGpr_within (cpu : CPUState) (str : List Char) : Within R (getGpr cpu str) := by
  unfold getGpr
  split
  · exact Within.pure _
  · refine (EvalRel.log _ (by decide)).bind fun _ => ?_
    exact Within.bind EvalRel.clearSuccess fun _ => Within.pure _

theorem evalLeaf_within (cpu : CPUState) (t : Token) : Within R (evalLeaf cpu t) := by
  have hillegal : Within R (do
      log .expressionIsIllegal
      return (0 : Word)) :=
    (EvalRel.log _ (by decide)).bind fun _ => Within.pure _
  unfold evalLeaf
  split
  · exact Within.pure _
  · exact Within.pure _
  · refine Within.bind (getGpr_within cpu t.str) fun v => ?_
    refine Within.bind (Within.get) fun s => ?_
    exact Within.ite (Within.pure _) (Within.pure _)
  · exact hillegal

/-- The zero divisor is the one case in which a division by zero is logged. -/
theorem applyOp_within (type : TokenType) (val1 val2 : Word) :
    Within R (applyOp type val1 val2) := by
  have hstrange : Within R (do
      log .strangeOperation
      clearSuccess
      return (0 : Word)) :=
    (EvalRel.log _ (by decide)).bind fun _ =>
      Within.bind EvalRel.clearSuccess fun _ => Within.pure _
  cases type with
  | divide =>
      by_cases h : val2 = 0
      · simp only [applyOp, if_pos h]
        exact fun s => EvalRel.zeroDivisor (R := R) s
      · simp only [applyOp, if_neg h]
        exact Within.pure _
  | plus | minus | times | tkEq | tkAnd | tkOr | tkUeq => exact Within.pure _
  | null | tkNotype | tkGpr | tkHexadecimal | tkDecimal | deref | lparen | rparen | lbracket
  | rbracket | lbrace | rbrace => exact hstrange

theorem evalSegment_within (cpu : CPUState) (l : List Token) :
    Within R (evalSegment ops cpu l) := by
  induction l using segment_induction with
  | nil =>
      rw [evalSegment]
      exact (EvalRel.log _ (by decide)).bind fun _ => Within.pure _
  | single t =>
      rw [evalSegment]
      exact evalLeaf_within cpu t
  | split l hlen ihIn ihLeft ihRight =>
      rcases exists_dominated hlen with ⟨op, hop⟩
      rw [evalSegment_split ops cpu hlen hop]
      refine Within.bind (checkSegment_within ops _) fun b => ?_
      refine Within.ite ihIn (Within.ite ?_ ?_)
      · refine Within.bind ihLeft fun val1 => ?_
        exact Within.bind ihRight fun val2 => applyOp_within _ _ _
      · exact Within.bind ihRight fun val1 => EvalRel.read _ _

end Functions

/-! ## expr -/

section Expr

variable {R : EvalState → EvalState → Prop} [EvalRel R]

/-- `R` between what two states of `expr` evaluate in. -/
def AcrossEval (R : EvalState → EvalState → Prop) (s s' : ExprState) : Prop := R s.eval s'.eval

instance : IsPreorder ExprState (AcrossEval R) where
  refl s := refl_of R s.eval
  trans _ _ _ h h' := trans_of R h h'

theorem liftTokens_within {α : Type} (x : OnTokens α) : Within (AcrossEval R) (liftTokens x) := by
  intro s
  rw [final_liftTokens]
  exact refl_of R s.eval

omit [EvalRel R] in
theorem liftEval_within {α : Type} {x : OnEval α} (hx : Within R x) :
    Within (AcrossEval R) (liftEval x) := by
  intro s
  rw [final_liftEval]
  exact hx s.eval

theorem expr_within (cpu : CPUState) (e : List Char) : Within (AcrossEval R) (expr cpu e) := by
  refine (liftTokens_within _).bind fun made => Within.ite ?_ ?_
  · refine Within.get.bind fun s => liftEval_within ?_
    rw [eval_eq_evalSegment]
    exact evalSegment_within codeStack cpu _
  · refine (liftEval_within (EvalRel.log _ (by decide))).bind fun _ => ?_
    exact (liftEval_within EvalRel.clearSuccess).bind fun _ => Within.pure _

end Expr

end Nemu
