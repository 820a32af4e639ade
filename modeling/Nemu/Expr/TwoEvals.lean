import Nemu.Expr.Accepts
import Nemu.Expr.EvalOver
import Nemu.Lib.TwoRuns

/-!
# Two evaluations of one expression

A relation on evaluator states that the primitive effects carry over is carried over by the whole
evaluation, and the two evaluations return the same value.  The texts that the token array holds
from earlier expressions are read by neither of them.
-/

namespace Nemu

open StateRules

/-! ## Texts that no leaf reads -/

section Congr

variable {m : Type → Type} [Monad m]

theorem map_type_congr {l m : List Token} (h : List.Forall₂ SameToken l m) :
    m.map Token.type = l.map Token.type := by
  induction h with
  | nil => rfl
  | cons ht _ ih => rw [List.map_cons, List.map_cons, ht.1, ih]

/-- The texts that no leaf reads do not matter. -/
theorem evalOver_congr (o : EvalOps m) (hleaf : ∀ t u, SameToken t u → o.leaf u = o.leaf t)
    {l l' : List Token} (h : List.Forall₂ SameToken l l') : evalOver o l' = evalOver o l := by
  induction l using segment_induction generalizing l' with
  | nil =>
      cases h
      rfl
  | single t =>
      cases h with
      | cons ht hnil =>
          cases hnil
          rw [evalOver, evalOver]
          exact hleaf _ _ ht
  | split l hlen ihIn ihLeft ihRight =>
      -- the scan and the bracket test look at the types alone
      have htypes := map_type_congr h
      have hlength := h.length_eq
      have hoffset : dominatedOffset l' = dominatedOffset l := by
        rw [dominatedOffset, htypes, dominatedOffset]
      rcases exists_dominated hlen with ⟨op, hop⟩
      rcases exists_dominated (hlength ▸ hlen) with ⟨op', hop'⟩
      have htype : op'.type = op.type := by
        have hget := congrArg (fun ts => ts[dominatedOffset l]?) htypes
        simp only [List.getElem?_map] at hget
        rw [hop, ← hoffset, hop'] at hget
        exact Option.some.inj hget
      have htail : List.Forall₂ SameToken l.tail.dropLast l'.tail.dropLast := by
        rw [List.dropLast_eq_take, List.dropLast_eq_take, ← List.drop_one, ← List.drop_one,
          List.length_drop, List.length_drop, hlength]
        exact List.forall₂_take _ (List.forall₂_drop _ h)
      have hleft := ihLeft (List.forall₂_take (dominatedOffset l) h)
      have hright := ihRight (List.forall₂_drop (dominatedOffset l + 1) h)
      rw [evalOver_split o hlen hop, evalOver_split o (hlength ▸ hlen) hop', hoffset, htypes, htype,
        ihIn htail, hleft, hright]

end Congr

theorem evalLeaf_congr (cpu : CPUState) {t u : Token} (h : SameToken t u) :
    evalLeaf cpu u = evalLeaf cpu t := by
  rcases h with ⟨htype, hstr⟩
  unfold evalLeaf
  rw [htype]
  split
  case h_1 ht => rw [hstr (by rw [ht]; exact Or.inr (Or.inl rfl))]
  case h_2 ht => rw [hstr (by rw [ht]; exact Or.inl rfl)]
  case h_3 ht => rw [hstr (by rw [ht]; exact Or.inr (Or.inr rfl))]
  case h_4 => rfl

theorem evalSegment_congr {σ : Type} (ops : StackOps σ) (cpu : CPUState) {l m : List Token}
    (h : List.Forall₂ SameToken l m) : evalSegment ops cpu m = evalSegment ops cpu l := by
  rw [evalSegment_eq_evalOver, evalSegment_eq_evalOver]
  exact evalOver_congr (plainOps ops cpu) (fun t u htu => evalLeaf_congr cpu htu) h

/-! ## Evaluation from related states -/

/-- A relation that the effects of an evaluation carry over. -/
class EvalSim (R : EvalState → EvalState → Prop) : Prop where
  log : ∀ m, Sim R (Nemu.log m) (Nemu.log m) (Alike R)
  clearSuccess : Sim R Nemu.clearSuccess Nemu.clearSuccess (Alike R)
  read : ∀ addr len, Sim R (liftBus (vaddrRead addr len)) (liftBus (vaddrRead addr len)) (Alike R)

section Functions

variable {R : EvalState → EvalState → Prop} [EvalSim R] {σ : Type} (ops : StackOps σ)

omit [EvalSim R] in
theorem liftStack_sim {α : Type} (x : Except Fault α) :
    Sim R (liftStack x) (liftStack x) (Alike R) := by
  cases x with
  | ok a => exact Sim.pure a
  | error e => exact Sim.throw e

theorem closeBracket_sim_self (opener : TokenType) (S : σ) :
    Sim R (closeBracket ops opener S) (closeBracket ops opener S) (Alike R) := by
  refine (liftStack_sim (ops.pop S)).andThen fun r => ?_
  cases r with
  | some m =>
      refine Sim.ite (Sim.pure _) ?_
      exact Sim.andThen EvalSim.clearSuccess fun _ => Sim.pure _
  | none =>
      refine (EvalSim.log _).andThen fun _ => ?_
      exact Sim.andThen EvalSim.clearSuccess fun _ => Sim.pure _

theorem checkParenthesesLoop_sim_self (p i : Int) (ts : List TokenType) (S : σ) :
    Sim R (checkParenthesesLoop ops p i ts S) (checkParenthesesLoop ops p i ts S) (Alike R) := by
  induction ts generalizing i S with
  | nil => exact Sim.pure _
  | cons e rest ih =>
      cases hopen : e.isOpen with
      | true =>
          rw [checkParenthesesLoop_open ops p i rest S hopen]
          refine Sim.ite ?_ (Sim.pure _)
          exact (liftStack_sim _).andThen fun S => ih (i + 1) S
      | false =>
          cases hclose : e.opener? with
          | some o =>
              rw [checkParenthesesLoop_close ops p i rest S hclose]
              refine (closeBracket_sim_self ops o S).andThen fun r => ?_
              exact Sim.ite (ih (i + 1) r.2) (Sim.pure _)
          | none =>
              rw [checkParenthesesLoop_other ops p i rest S hopen hclose]
              exact ih (i + 1) S

theorem checkSegment_sim_self (ts : List TokenType) :
    Sim R (checkSegment ops ts) (checkSegment ops ts) (Alike R) := by
  unfold checkSegment
  refine Sim.ite (Sim.pure _) ?_
  exact (checkParenthesesLoop_sim_self ops 0 0 ts ops.init).andThen fun r => Sim.pure _

theorem applyOp_sim_self (type : TokenType) (val1 val2 : Word) :
    Sim R (applyOp type val1 val2) (applyOp type val1 val2) (Alike R) := by
  have hstrange : Sim R (do
      log .strangeOperation
      clearSuccess
      return (0 : Word)) (do
      log .strangeOperation
      clearSuccess
      return (0 : Word)) (Alike R) :=
    (EvalSim.log _).andThen fun _ => Sim.andThen EvalSim.clearSuccess fun _ => Sim.pure _
  cases type with
  | divide =>
      refine Sim.ite ?_ (Sim.pure _)
      exact Sim.andThen EvalSim.clearSuccess fun _ => (EvalSim.log _).andThen fun _ => Sim.pure _
  | plus | minus | times | tkEq | tkAnd | tkOr | tkUeq => exact Sim.pure _
  | null | tkNotype | tkGpr | tkHexadecimal | tkDecimal | deref | lparen | rparen | lbracket
  | rbracket | lbrace | rbrace => exact hstrange

/-- Two evaluations that agree on every single token agree. -/
theorem evalSegment_sim {cpu cpu' : CPUState}
    (hleaf : ∀ t, Sim R (evalLeaf cpu t) (evalLeaf cpu' t) (Alike R)) (l : List Token) :
    Sim R (evalSegment ops cpu l) (evalSegment ops cpu' l) (Alike R) := by
  induction l using segment_induction with
  | nil =>
      rw [evalSegment, evalSegment]
      exact (EvalSim.log _).andThen fun _ => Sim.pure _
  | single t =>
      rw [evalSegment, evalSegment]
      exact hleaf t
  | split l hlen ihIn ihLeft ihRight =>
      rcases exists_dominated hlen with ⟨op, hop⟩
      rw [evalSegment_split ops cpu hlen hop, evalSegment_split ops cpu' hlen hop]
      refine (checkSegment_sim_self ops _).andThen fun b => ?_
      refine Sim.ite ihIn (Sim.ite ?_ ?_)
      · refine ihLeft.andThen fun val1 => ihRight.andThen fun val2 => ?_
        exact applyOp_sim_self _ _ _
      · exact ihRight.andThen fun val1 => EvalSim.read _ _

end Functions

/-! ## The token array -/

/-- The arrays hold the same tokens, as far as anything reads them. -/
structure SameBuf (buf buf' : TokenBuf) : Prop where
  nrToken : buf'.nrToken = buf.nrToken
  tokens : ∀ i < buf.nrToken, SameToken (buf.tokens i) (buf'.tokens i)

namespace SameBuf

variable {buf buf' : TokenBuf}

theorem starType (h : SameBuf buf buf') : buf'.starType = buf.starType := by
  unfold TokenBuf.starType
  rw [h.nrToken]
  by_cases hnr : buf.nrToken = 0
  · rw [if_pos hnr, if_pos hnr]
  · rw [if_neg hnr, if_neg hnr, (h.tokens (buf.nrToken - 1) (by omega)).1]

/-- What is recorded at `nr_token` agrees as well. -/
theorem record_slot (h : SameBuf buf buf') (type : TokenType) (str : List Char)
    (hnew : buf.nrToken < ((buf.setType type).record type str).nrToken) :
    SameToken (((buf.setType type).record type str).tokens buf.nrToken)
      (((buf'.setType type).record type str).tokens buf.nrToken) := by
  have hstar := h.starType
  have hnr := h.nrToken
  cases type with
  | null | tkNotype | deref => exact absurd hnew (Nat.lt_irrefl _)
  | times =>
      have hslot := buf.add_times
      have hslot' := buf'.add_times
      rw [hnr, hstar] at hslot'
      refine ⟨hslot'.trans hslot.symm, fun htext => ?_⟩
      -- a `*` has no text, in either of its two meanings
      change ((buf.add (.sym .times)).tokens buf.nrToken).type.IsText at htext
      rw [hslot] at htext
      rcases buf.starType_cases with hs | hs <;> rw [hs] at htext <;>
        simp [TokenType.IsText] at htext
  | tkGpr | tkHexadecimal | tkDecimal =>
      simp [TokenBuf.record, TokenBuf.setType, TokenBuf.setStr, TokenBuf.next, hnr, SameToken]
  | plus | minus | divide | lparen | rparen | lbracket | rbracket | lbrace | rbrace | tkEq | tkUeq
  | tkAnd | tkOr =>
      simp [TokenBuf.record, TokenBuf.setType, TokenBuf.next, hnr, SameToken, TokenType.IsText]

theorem record (h : SameBuf buf buf') (type : TokenType) (str : List Char) :
    SameBuf ((buf.setType type).record type str) ((buf'.setType type).record type str) := by
  constructor
  · cases type <;> simp [TokenBuf.record, h.nrToken]
  · intro i hi
    have hbound := (TokenBuf.record_nrToken (buf.setType type) type str).2
    rw [TokenBuf.setType_nrToken] at hbound
    rcases Nat.lt_or_ge i buf.nrToken with hlt | hge
    · -- nothing below `nr_token` is written
      have hnr := h.nrToken
      rw [TokenBuf.record_of_ne (i := i) _ _ _ (by rw [TokenBuf.setType_nrToken]; omega),
        TokenBuf.record_of_ne (i := i) _ _ _ (by rw [TokenBuf.setType_nrToken]; omega),
        TokenBuf.setType_of_ne (i := i) _ _ (by omega),
        TokenBuf.setType_of_ne (i := i) _ _ (by omega)]
      exact h.tokens i hlt
    · obtain rfl : i = buf.nrToken := by omega
      exact h.record_slot type str hi

end SameBuf

theorem addToken_sim (type : TokenType) (substr : List Char) :
    Sim SameBuf (addToken type substr) (addToken type substr) (Alike SameBuf) := by
  refine Sim.get fun buf buf' h => ?_
  rw [h.nrToken]
  refine Sim.ite (Sim.throw _) (Sim.ite (Sim.throw _) ?_)
  intro b b' a c hb hrun
  cases hrun
  exact ⟨⟨⟩, _, rfl, rfl, h.record type substr⟩

theorem makeTokenLoop_sim (fuel : Nat) (s : List Char) :
    Sim SameBuf (makeTokenLoop fuel s) (makeTokenLoop fuel s) (Alike SameBuf) := by
  induction fuel generalizing s with
  | zero =>
      cases s with
      | nil => exact Sim.pure true
      | cons c s => exact Sim.throw _
  | succ fuel ih =>
      cases s with
      | nil => exact Sim.pure true
      | cons c s =>
          unfold makeTokenLoop
          cases matchRule (c :: s) with
          | none => exact Sim.pure false
          | some m => exact (addToken_sim m.1 _).andThen fun _ => ih _

/-- What the array held before does not matter. -/
theorem makeToken_sim (e : List Char) :
    Sim (fun _ _ => True) (makeToken e) (makeToken e) (Alike SameBuf) :=
  (Sim.modify fun _ _ _ => ⟨rfl, fun _ hi => absurd hi (Nat.not_lt_zero _)⟩).andThen fun _ =>
    makeTokenLoop_sim e.length e

theorem SameBuf.stored {buf buf' : TokenBuf} (h : SameBuf buf buf') :
    List.Forall₂ SameToken buf.stored buf'.stored := by
  rw [TokenBuf.stored_eq, TokenBuf.stored_eq, h.nrToken, List.forall₂_map_left_iff,
    List.forall₂_map_right_iff, List.forall₂_same]
  exact fun i hi => h.tokens i (List.mem_range.1 hi)

/-! ## expr -/

section Expr

variable {R : EvalState → EvalState → Prop} [EvalSim R]

/-- The token arrays agree, and `R` relates the rest. -/
def Beside (R : EvalState → EvalState → Prop) (s t : ExprState) : Prop :=
  SameBuf s.buf t.buf ∧ R s.eval t.eval

omit [EvalSim R] in
theorem liftTokens_sim {x : OnTokens Bool}
    (hx : Sim (fun _ _ => True) x x (Alike SameBuf)) :
    Sim (fun s t => R s.eval t.eval) (liftTokens x) (liftTokens x) (Alike (Beside R)) := by
  intro s t b s' hR hrun
  unfold liftTokens at hrun
  cases hbuf : x s.buf with
  | error f buf =>
      rw [hbuf] at hrun
      cases hrun
  | ok b' buf =>
      rw [hbuf] at hrun
      cases hrun
      rcases hx s.buf t.buf b buf trivial hbuf with ⟨c, buf', hrun', rfl, hsame⟩
      refine ⟨_, { t with buf := buf' }, ?_, rfl, hsame, hR⟩
      simp only [liftTokens, hrun']

omit [EvalSim R] in
theorem liftEval_sim {α : Type} {x y : OnEval α} (hx : Sim R x y (Alike R)) :
    Sim (Beside R) (liftEval x) (liftEval y) (Alike (Beside R)) := by
  intro s t a s' hst hrun
  unfold liftEval at hrun
  cases heval : x s.eval with
  | error f eval =>
      rw [heval] at hrun
      cases hrun
  | ok a' eval =>
      rw [heval] at hrun
      cases hrun
      rcases hx s.eval t.eval a eval hst.2 heval with ⟨b, eval', hrun', rfl, hR⟩
      refine ⟨_, { t with eval := eval' }, ?_, rfl, hst.1, hR⟩
      simp only [liftEval, hrun']

/-- Two runs of `expr` from related states, whatever the token arrays held. -/
theorem expr_sim {cpu cpu' : CPUState}
    (hleaf : ∀ t, Sim R (evalLeaf cpu t) (evalLeaf cpu' t) (Alike R)) (e : List Char) :
    Sim (fun s t => R s.eval t.eval) (expr cpu e) (expr cpu' e)
      (Alike fun s t => R s.eval t.eval) := by
  refine (liftTokens_sim (makeToken_sim e)).andThen fun b => ?_
  refine Sim.ite (Sim.get fun s t hst => ?_) ?_
  · -- the tokens differ in texts that are not read
    have hcongr := evalSegment_congr codeStack cpu' hst.1.stored
    simp only [eval_eq_evalSegment]
    change Sim (Beside R) (liftEval (evalSegment codeStack cpu s.buf.stored))
      (liftEval (evalSegment codeStack cpu' t.buf.stored)) _
    rw [hcongr]
    exact (liftEval_sim (evalSegment_sim codeStack hleaf _)).alike_mono fun _ _ h => h.2
  · refine (liftEval_sim (EvalSim.log _)).andThen fun _ => ?_
    exact (liftEval_sim EvalSim.clearSuccess).andThen fun _ =>
      (Sim.pure _).alike_mono fun _ _ h => h.2

end Expr

/-! ## The same machine -/

/-- The flags and the memories are the same; what has been logged may differ. -/
structure SameMachine (s t : EvalState) : Prop where
  success : t.success = s.success
  bus : t.bus = s.bus

instance : EvalSim SameMachine where
  log _ := Sim.modify fun _ _ h => ⟨h.success, h.bus⟩
  clearSuccess := Sim.modify fun _ _ h => ⟨rfl, h.bus⟩
  read addr len := by
    intro s t v s' h hrun
    unfold liftBus at hrun ⊢
    rw [h.bus]
    cases hread : vaddrRead addr len s.bus with
    | error f bus =>
        rw [hread] at hrun
        cases hrun
    | ok v' bus =>
        rw [hread] at hrun
        cases hrun
        exact ⟨v, { t with bus }, rfl, rfl, h.success, rfl⟩

theorem getGpr_sim_self {R : EvalState → EvalState → Prop} [EvalSim R] (cpu : CPUState)
    (str : List Char) : Sim R (getGpr cpu str) (getGpr cpu str) (Alike R) := by
  unfold getGpr
  cases (getGprTable cpu).find? fun row => str == row.1 with
  | some row => exact Sim.pure _
  | none =>
      exact (EvalSim.log _).andThen fun _ => Sim.andThen EvalSim.clearSuccess fun _ => Sim.pure _

theorem evalLeaf_sim_self {R : EvalState → EvalState → Prop} [EvalSim R]
    (hflag : ∀ s t, R s t → t.success = s.success) (cpu : CPUState) (t : Token) :
    Sim R (evalLeaf cpu t) (evalLeaf cpu t) (Alike R) := by
  unfold evalLeaf
  split
  · exact Sim.pure _
  · exact Sim.pure _
  · refine (getGpr_sim_self cpu t.str).andThen fun v => Sim.get fun s u hsu => ?_
    rw [hflag s u hsu]
    exact Sim.ite (Sim.pure _) (Sim.pure _)
  · exact (EvalSim.log _).andThen fun _ => Sim.pure _

/-- An evaluation depends on the registers, the flag and the memory, and on nothing else. -/
theorem expr_sameMachine (cpu : CPUState) (e : List Char) :
    Sim (fun s t => SameMachine s.eval t.eval) (expr cpu e) (expr cpu e)
      (Alike fun s t => SameMachine s.eval t.eval) :=
  expr_sim (evalLeaf_sim_self (fun _ _ h => h.success) cpu) e

/-! ## Earlier expressions -/

/-- The rest of the state is the same. -/
instance : EvalSim (· = ·) where
  log _ := Sim.modify fun _ _ h => by rw [h]
  clearSuccess := Sim.modify fun _ _ h => by rw [h]
  read addr len := by
    rintro s _ v s' rfl hrun
    exact ⟨v, s', hrun, rfl, rfl⟩

/-- A call of `expr`, with the registers and the rest of the machine that it finds. -/
structure ExprCall where
  cpu : CPUState
  str : List Char
  start : EvalState

/-- The token array after some calls.  A call that fails leaves the tokens it has recorded. -/
def bufAfter (calls : List ExprCall) (buf : TokenBuf) : TokenBuf :=
  calls.foldl (fun buf c => (final (expr c.cpu c.str ⟨buf, c.start⟩)).buf) buf

/-- What the caller gets back: the value, and the flag with the rest of the machine.  Nothing if
the call runs out of a buffer or stops the program. -/
def returned (r : EStateM.Result Fault ExprState Word) : Option (Word × EvalState) :=
  match r with
  | .ok v s => some (v, s.eval)
  | .error _ _ => none

theorem returned_of_returned {cpu : CPUState} {e : List Char} {start : EvalState}
    (buf buf' : TokenBuf) {r : Word × EvalState}
    (h : returned (expr cpu e ⟨buf, start⟩) = some r) :
    returned (expr cpu e ⟨buf', start⟩) = some r := by
  have hsim : Sim (fun s t => s.eval = t.eval) (expr cpu e) (expr cpu e)
      (Alike fun s t => s.eval = t.eval) :=
    expr_sim (evalLeaf_sim_self (fun s t hst => by rw [hst]) cpu) e
  cases hrun : expr cpu e ⟨buf, start⟩ with
  | error f s =>
      rw [hrun] at h
      cases h
  | ok v s =>
      rw [hrun] at h
      rcases hsim ⟨buf, start⟩ ⟨buf', start⟩ v s rfl hrun with ⟨v', t, hrun', rfl, heval⟩
      rw [hrun', returned, ← heval]
      exact h

/-- Whatever expressions came before, `expr` returns what it returns with a zeroed token array. -/
theorem returned_bufAfter (calls : List ExprCall) (cpu : CPUState) (e : List Char)
    (start : EvalState) :
    returned (expr cpu e ⟨bufAfter calls .zero, start⟩) =
      returned (expr cpu e ⟨.zero, start⟩) := by
  cases hzero : returned (expr cpu e ⟨.zero, start⟩) with
  | some r => exact returned_of_returned .zero _ hzero
  | none =>
      -- a value with the old tokens would be one with the zeroed array
      cases hbuf : returned (expr cpu e ⟨bufAfter calls .zero, start⟩) with
      | none => rfl
      | some r =>
          have hsome := returned_of_returned _ .zero hbuf
          rw [hzero] at hsome
          cases hsome

end Nemu
