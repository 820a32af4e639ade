import Nemu.Lib.Recording
import Nemu.Expr.TwoEvals

/-!
# The guest reads of an evaluation

`evalReads` and `exprReads` are `eval` and `expr` with every `vaddr_read` recorded under its
address.  However the tokens are arranged, there are no more reads than dereferences in them.
-/

namespace Nemu

open StateRules

/-! ## Recording -/

abbrev OnReads := Recorder Fault EvalState Word

/-- `vaddr_read(addr, 4)` -/
def readGuest (addr : Word) : OnReads Word := do
  emit addr
  unrecorded (liftBus (vaddrRead addr 4))

def recordingOps {σ : Type} (ops : StackOps σ) (cpu : CPUState) : EvalOps OnReads where
  empty := unrecorded (plainOps ops cpu).empty
  leaf t := unrecorded (evalLeaf cpu t)
  check ts := unrecorded (checkSegment ops ts)
  apply type val1 val2 := unrecorded (applyOp type val1 val2)
  read := readGuest

def evalReads {σ : Type} (ops : StackOps σ) (cpu : CPUState) (l : List Token) : OnReads Word :=
  evalOver (recordingOps ops cpu) l

def liftReads {α : Type} (x : OnReads α) : Recorder Fault ExprState Word α := fun s =>
  match x ⟨s.state.eval, s.events⟩ with
  | .ok a t => .ok a ⟨{ s.state with eval := t.state }, t.events⟩
  | .error e t => .error e ⟨{ s.state with eval := t.state }, t.events⟩

def exprReads (cpu : CPUState) (e : List Char) : Recorder Fault ExprState Word Word := do
  if ← unrecorded (liftTokens (makeToken e)) then
    let s ← unrecorded get
    liftReads (evalReads codeStack cpu s.buf.stored)
  else
    unrecorded do
      liftEval (log .makeTokenFailed)
      liftEval clearSuccess
      return 0

/-! ## The number of reads -/

def derefCount (l : List Token) : Nat := l.countP fun t => t.type = .deref

theorem derefCount_cons (t : Token) (l : List Token) :
    derefCount (t :: l) = derefCount l + if t.type = .deref then 1 else 0 := by
  simp [derefCount, List.countP_cons]

theorem derefCount_inside (l : List Token) : derefCount l.tail.dropLast ≤ derefCount l :=
  List.Sublist.countP_le ((List.dropLast_sublist _).trans (List.tail_sublist l))

/-- The parts on the two sides of a token, and the token. -/
theorem derefCount_split {l : List Token} {k : Nat} {op : Token} (h : l[k]? = some op) :
    derefCount l = derefCount (l.take k) + derefCount (l.drop (k + 1)) +
      if op.type = .deref then 1 else 0 := by
  have hsplit := congrArg derefCount (take_getElem?_drop h)
  simp only [derefCount, List.countP_append, List.countP_cons, decide_eq_true_eq] at hsplit ⊢
  omega

theorem evalReads_atMost {σ : Type} (ops : StackOps σ) (cpu : CPUState) (l : List Token) :
    AtMost (derefCount l) (evalReads ops cpu l) (evalSegment ops cpu l) := by
  rw [evalSegment_eq_evalOver, evalReads]
  induction l using segment_induction with
  | nil =>
      rw [evalOver, evalOver]
      exact AtMost.unrecorded (plainOps ops cpu).empty
  | single t =>
      rw [evalOver, evalOver]
      exact AtMost.unrecorded (evalLeaf cpu t)
  | split l hlen ihIn ihLeft ihRight =>
      rcases exists_dominated hlen with ⟨op, hop⟩
      have hcount := derefCount_split hop
      rw [evalOver_split _ hlen hop, evalOver_split _ hlen hop]
      have hcheck := AtMost.unrecorded (τ := Word) (n := 0) (checkSegment ops (l.map Token.type))
      refine AtMost.mono (hcheck.bind fun surrounded => ?_) (Nat.le_of_eq (Nat.zero_add _))
      refine AtMost.ite (fun _ => ihIn.mono (derefCount_inside l)) fun _ => ?_
      refine AtMost.ite (fun hne => ?_) fun heq => ?_
      · have happly := fun val1 val2 =>
          AtMost.unrecorded (τ := Word) (n := 0) (applyOp op.type val1 val2)
        refine AtMost.mono (ihLeft.bind fun val1 => ihRight.bind fun val2 => happly val1 val2) ?_
        omega
      · -- the read is that of the dereference at which the list is split
        have hread := fun val1 : Word =>
          AtMost.emit (e := val1) (AtMost.unrecorded (n := 0) (liftBus (vaddrRead val1 4)))
        rw [if_pos (not_not.1 heq)] at hcount
        refine AtMost.mono (ihRight.bind fun val1 => hread val1) ?_
        omega

/-! ## The two stacks -/

/-- The bracket test over the source's stack, for types that nest less than its block is deep. -/
theorem checkSegment_of_nesting {ts : List TokenType} (h : nesting 0 ts < stackInitSize) :
    checkSegment codeStack ts = checkSegment lifo ts := by
  funext s
  rcases checkSegment_agrees ts s with heq | ⟨hdeep, -⟩
  · exact heq
  · omega

theorem evalReads_of_nesting (cpu : CPUState) {l : List Token}
    (h : nesting 0 (l.map Token.type) < stackInitSize) :
    evalReads codeStack cpu l = evalReads lifo cpu l := by
  unfold evalReads
  induction l using segment_induction with
  | nil =>
      rw [evalOver, evalOver]
      rfl
  | single t =>
      rw [evalOver, evalOver]
      rfl
  | split l hlen ihIn ihLeft ihRight =>
      rcases exists_dominated hlen with ⟨op, hop⟩
      have hpart : ∀ m : List Token, m <:+: l → nesting 0 (m.map Token.type) < stackInitSize :=
        fun m hm => Nat.lt_of_le_of_lt (nesting_le_of_sublist hm) h
      have hdrop : l.tail.dropLast <+: l.tail := List.dropLast_prefix _
      have hin : l.tail.dropLast <:+: l := hdrop.isInfix.trans (List.tail_suffix l).isInfix
      have hleft : l.take (dominatedOffset l) <+: l := List.take_prefix _ l
      have hcheck : (recordingOps codeStack cpu).check (l.map Token.type) =
          (recordingOps lifo cpu).check (l.map Token.type) :=
        congrArg unrecorded (checkSegment_of_nesting h)
      rw [evalOver_split _ hlen hop, evalOver_split _ hlen hop, hcheck, ihIn (hpart _ hin),
        ihLeft (hpart _ hleft.isInfix), ihRight (hpart _ (List.drop_suffix _ l).isInfix)]
      rfl

/-! ## expr -/

theorem evalReads_congr {σ : Type} (ops : StackOps σ) (cpu : CPUState) {l m : List Token}
    (h : List.Forall₂ SameToken l m) : evalReads ops cpu m = evalReads ops cpu l :=
  evalOver_congr _ (fun _ _ htu => congrArg unrecorded (evalLeaf_congr cpu htu)) h

/-- A run of `expr` on a text that is lexed goes on with the tokens that are stored. -/
theorem exprReads_of_stored {cpu : CPUState} {e : List Char} {s : Recording ExprState Word}
    {buf : TokenBuf} (h : makeToken e s.state.buf = .ok true buf) :
    exprReads cpu e s =
      liftReads (evalReads codeStack cpu buf.stored) { s with state := { s.state with buf } } := by
  have hlift : (unrecorded (liftTokens (makeToken e)) : Recorder Fault ExprState Word Bool) s =
      .ok true { s with state := { s.state with buf } } := by
    refine unrecorded_of_ok ?_
    simp only [liftTokens, h]
  rw [exprReads, bind_ok hlift, if_pos rfl]
  rfl

theorem liftReads_eq_ok {α : Type} {x : OnReads α} {s t : Recording ExprState Word} {a : α} :
    liftReads x s = .ok a t ↔
      ∃ u, x ⟨s.state.eval, s.events⟩ = .ok a u ∧ t = ⟨{ s.state with eval := u.state }, u.events⟩ := by
  unfold liftReads
  cases x ⟨s.state.eval, s.events⟩ with
  | ok b u =>
      constructor
      · intro h
        cases h
        exact ⟨u, rfl, rfl⟩
      · rintro ⟨u', h, rfl⟩
        cases h
        rfl
  | error f u =>
      constructor
      · intro h
        cases h
      · rintro ⟨u', h, -⟩
        cases h

theorem liftReads_logs {α : Type} {P : List Word → Prop} {x : OnReads α} {y : OnEval α}
    (hx : Logs P x y) : Logs P (liftReads x) (liftEval y) := by
  intro s
  rcases hx ⟨s.state.eval, s.events⟩ with ⟨events, hP, hrun⟩
  refine ⟨events, hP, ?_⟩
  simp only [liftReads, liftEval, hrun]
  cases y s.state.eval <;> rfl

/-- Apart from the record, `exprReads` is `expr`. -/
theorem exprReads_records (cpu : CPUState) (e : List Char) :
    Records (fun _ => True) (exprReads cpu e) (expr cpu e) := by
  refine (Records.unrecorded _).bind fun made => ?_
  refine Records.ite (fun _ => ?_) fun _ => Records.unrecorded _
  refine (Records.unrecorded _).bind fun s => ?_
  rw [eval_eq_evalSegment]
  refine liftReads_logs (Logs.mono (evalReads_atMost codeStack cpu s.buf.stored) ?_)
  exact fun _ _ _ _ => trivial

end Nemu
