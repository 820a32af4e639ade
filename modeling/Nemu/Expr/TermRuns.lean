import Nemu.Expr.Terms

/-!
# Runs on the tokens of an expression

The tokens that an expression stands for, each unary `*` among them a dereference, are evaluated to
its meaning, with the guest reads that the meaning has.  A run over the source's stack that returns
was on an expression with less than 100 brackets open at a time.
-/

namespace Nemu

open StateRules

/-! ## What a run comes to -/

/-- Every run of `x` on the machine `bus` under the flag `w` comes to `r` and leaves the machine
alone.  It may log messages. -/
def Gives (bus : Bus) (w : Word) (x : OnReads Word) (r : Reading) : Prop :=
  ∀ messages events, ∃ messages',
    x ⟨⟨w, bus, messages⟩, events⟩ = .ok r.value ⟨⟨r.success, bus, messages'⟩, events ++ r.reads⟩

namespace Gives

variable {bus : Bus} {w : Word} {x y : OnReads Word} {r r' : Reading}

/-- A program that reads no guest memory. -/
theorem unrecorded {z : OnEval Word} {v w' : Word}
    (h : ∀ messages, ∃ messages', z ⟨w, bus, messages⟩ = .ok v ⟨w', bus, messages'⟩) :
    Gives bus w (StateRules.unrecorded z) ⟨v, w', []⟩ := by
  intro messages events
  rcases h messages with ⟨messages', hrun⟩
  refine ⟨messages', ?_⟩
  simp only [StateRules.unrecorded, hrun, List.append_nil]
  rfl

/-- The bracket test in front of a program. -/
theorem after {f : Bool → OnReads Word} {c : OnReads Bool} {b : Bool} (hc : ∀ s, c s = .ok b s)
    (h : Gives bus w (f b) r) : Gives bus w (c >>= f) r := by
  intro messages events
  rw [bind_ok (hc _)]
  exact h messages events

theorem deref (hx : Gives bus w x r) (hin : mapInside bus.pmemMap r.value = true) :
    Gives bus w (x >>= readGuest)
      ⟨bus.guestWord r.value, r.success, r.reads ++ [r.value]⟩ := by
  intro messages events
  rcases hx messages events with ⟨messages', hrun⟩
  refine ⟨messages', ?_⟩
  -- four bytes of `pmem`, with nothing masked out
  have hmask : ∀ v : Word, v &&& lenMask 4 = v := by
    intro v
    rw [show lenMask 4 = BitVec.allOnes 32 from by decide, BitVec.and_allOnes]
  have hread : liftBus (vaddrRead r.value 4) ⟨r.success, bus, messages'⟩ =
      .ok (bus.guestWord r.value) ⟨r.success, bus, messages'⟩ := by
    simp only [liftBus, vaddrRead, paddrRead_pmem 4 hin, hmask]
    rfl
  rw [bind_ok hrun, readGuest, bind_ok (emit_run _ _)]
  simp only [StateRules.unrecorded, hread, List.append_assoc]
  rfl

theorem bin (op : BinOp) (hx : Gives bus w x r) (hy : Gives bus r.success y r') :
    Gives bus w
      (x >>= fun val1 => y >>= fun val2 =>
        StateRules.unrecorded (applyOp op.type val1 val2))
      (match op.apply r.value r'.value with
      | some v => ⟨v, r'.success, r.reads ++ r'.reads⟩
      | none => ⟨0, 0, r.reads ++ r'.reads⟩) := by
  intro messages events
  rcases hx messages events with ⟨messages₁, hrun₁⟩
  rcases hy messages₁ (events ++ r.reads) with ⟨messages₂, hrun₂⟩
  rw [bind_ok hrun₁, bind_ok hrun₂, List.append_assoc]
  cases hop : op.apply r.value r'.value with
  | some v =>
      refine ⟨messages₂, ?_⟩
      simp only [StateRules.unrecorded, applyOp_some hop]
      rfl
  | none =>
      rcases applyOp_zero hop ⟨r'.success, bus, messages₂⟩ with ⟨messages₃, hrun₃⟩
      refine ⟨messages₃, ?_⟩
      simp only [StateRules.unrecorded, hrun₃]
      rfl

end Gives

/-! ## Pieces -/

section Pieces

variable {k : Nat} {e : Term} {us vs : List Piece}

theorem Piece.map_token_type (us : List Piece) :
    (us.map Piece.token).map Token.type = us.map Piece.type := by
  rw [List.map_map]
  exact List.map_congr_left fun u _ => u.token_type

/-- If every star is seen, the operand of a star is a primary expression. -/
theorem Spelled.primary (h : Spelled 5 e us) (hseen : StarsSeen (.star :: us)) :
    Spelled 6 e us := by
  generalize hk : 5 = k at h
  cases h with
  | dec _ _ _ | hex _ _ _ | reg _ _ | paren _ => cases hk
  | deref _ => exact absurd (Or.inr (Or.inr rfl)) ((List.isChain_cons_cons.1 hseen).1 rfl)
  | @bin op _ _ _ _ _ _ =>
      have hle := op.level_le
      omega
  | up h =>
      cases hk
      exact h

/-- An expression in brackets. -/
theorem Spelled.checkSegment_paren (h : Spelled 0 e us) (s : EvalState) :
    checkSegment lifo (.lparen :: (us.map Piece.type ++ [.rparen])) s = .ok true s :=
  checkSegment_surround h.nested s

theorem Spelled.checkSegment_star (h : Spelled 6 e us) (s : EvalState) :
    checkSegment lifo (.deref :: us.map Piece.type) s = .ok false s :=
  checkSegment_split (.nil 0) rfl rfl h.nested s

theorem Spelled.checkSegment_bin {op : BinOp} {a b : Term} (ha : Spelled op.level a us)
    (hb : Spelled (op.level + 1) b vs) (s : EvalState) :
    checkSegment lifo (us.map Piece.type ++ op.type :: vs.map Piece.type) s = .ok false s :=
  checkSegment_split ha.nested op.type_scan.1 op.type_scan.2.1 hb.nested s

section Splits

variable {σ : Type} (ops : StackOps σ) (cpu : CPUState)

/-- A single token is a leaf. -/
theorem evalReads_leaf (t : Token) : evalReads ops cpu [t] = unrecorded (evalLeaf cpu t) := by
  rw [evalReads, evalOver]
  rfl

theorem evalReads_paren (us : List Piece) :
    ∃ f, evalReads ops cpu ((.lex (.sym .lparen) :: (us ++ [.lex (.sym .rparen)])).map Piece.token) =
      (recordingOps ops cpu).check (.lparen :: (us.map Piece.type ++ [.rparen])) >>= fun surrounded =>
        if surrounded then evalReads ops cpu (us.map Piece.token) else f := by
  rcases evalOver_paren (recordingOps ops cpu) (Piece.lex (.sym .lparen)).token
    (Piece.lex (.sym .rparen)).token (us.map Piece.token) with ⟨f, hsplit⟩
  rw [List.map_cons, List.map_append, Piece.map_token_type] at hsplit
  refine ⟨f, ?_⟩
  rw [List.map_cons, List.map_append]
  exact hsplit

theorem Spelled.evalReads_star (h : Spelled 6 e us) :
    ∃ f, evalReads ops cpu ((.star :: us).map Piece.token) =
      (recordingOps ops cpu).check (.deref :: us.map Piece.type) >>= fun surrounded =>
        if surrounded then f else evalReads ops cpu (us.map Piece.token) >>= readGuest := by
  have hne : us.map Piece.token ≠ [] := by simp [h.ne_nil]
  have hnested := h.nested
  rw [← Piece.map_token_type] at hnested
  have hsplit := @evalOver_at _ _ (recordingOps ops cpu) [] _ Piece.star.token 5 rfl (.nil 5) hnested hne
  rw [List.nil_append, List.map_cons, Piece.map_token_type, if_neg (by decide)] at hsplit
  exact ⟨_, hsplit⟩

theorem Spelled.evalReads_bin {op : BinOp} {a b : Term} (ha : Spelled op.level a us)
    (hb : Spelled (op.level + 1) b vs) :
    ∃ f, evalReads ops cpu ((us ++ .lex (.sym op.symbol) :: vs).map Piece.token) =
      (recordingOps ops cpu).check (us.map Piece.type ++ op.type :: vs.map Piece.type) >>=
        fun surrounded =>
          if surrounded then f
          else evalReads ops cpu (us.map Piece.token) >>= fun val1 =>
            evalReads ops cpu (vs.map Piece.token) >>= fun val2 =>
              unrecorded (applyOp op.type val1 val2) := by
  have hne : vs.map Piece.token ≠ [] := by simp [hb.ne_nil]
  have hnested := ha.nested
  have hnested' := hb.nested
  rw [← Piece.map_token_type] at hnested hnested'
  have htype : (Piece.lex (.sym op.symbol)).token.type = op.type :=
    (Piece.token_type _).trans (Piece.type_symbol op)
  have hsplit := evalOver_at (recordingOps ops cpu) (htype ▸ op.priority_type) hnested hnested' hne
  rw [List.map_append, List.map_cons, Piece.map_token_type, Piece.map_token_type, htype,
    if_pos op.type_scan.2.2] at hsplit
  rw [List.map_append, List.map_cons]
  exact ⟨_, hsplit⟩

end Splits

end Pieces

/-! ## The run over the unbounded stack -/

section Lifo

variable {cpu : CPUState} {bus : Bus} {w : Word}

theorem recordingOps_check {σ : Type} {ops : StackOps σ} {ts : List TokenType} {b : Bool}
    (h : ∀ s, checkSegment ops ts s = .ok b s) (s : Recording EvalState Word) :
    (recordingOps ops cpu).check ts s = .ok b s := by
  exact unrecorded_of_ok (h s.state)

/-- On the tokens that an expression stands for, `eval` finds its structure. -/
theorem Spelled.gives {k : Nat} {e : Term} {us : List Piece} (h : Spelled k e us)
    (hseen : StarsSeen us)
    (hin : ∀ a ∈ (e.reading cpu bus.guestWord w).reads, mapInside bus.pmemMap a = true) :
    Gives bus w (evalReads lifo cpu (us.map Piece.token)) (e.reading cpu bus.guestWord w) := by
  induction h generalizing w with
  | dec digits ne all =>
      have hleaf : evalLeaf cpu (Piece.lex (.dec digits ne all)).token = pure (decimal digits) := rfl
      rw [List.map_singleton, evalReads_leaf, hleaf, decimal_eq_numeral all]
      exact Gives.unrecorded fun messages => ⟨messages, rfl⟩
  | hex digits ne all =>
      have hall : ∀ c ∈ digits, isHexDigit c = true := fun c hc => by simp [isHexDigit, all c hc]
      have hleaf : evalLeaf cpu (Piece.lex (.hex digits ne all)).token =
          pure (htoi ('0' :: 'x' :: digits)) := rfl
      rw [List.map_singleton, evalReads_leaf, hleaf, htoi_literal ne hall]
      exact Gives.unrecorded fun messages => ⟨messages, rfl⟩
  | reg name mem =>
      have hleaf := fun s => evalLeaf_gprOf cpu (t := (Piece.lex (.reg name mem)).token) rfl s
      have hstr : (Piece.lex (.reg name mem)).token.str = '$' :: name := rfl
      rw [hstr] at hleaf
      rw [List.map_singleton, evalReads_leaf, Term.reading]
      cases hgpr : gprOf cpu ('$' :: name) with
      | some v =>
          rw [hgpr] at hleaf
          exact Gives.unrecorded fun messages => ⟨messages, hleaf _⟩
      | none =>
          rw [hgpr] at hleaf
          exact Gives.unrecorded fun messages => ⟨_, hleaf _⟩
  | @paren e us h ih =>
      rcases evalReads_paren lifo cpu us with ⟨f, hsplit⟩
      rw [hsplit]
      refine Gives.after (recordingOps_check h.checkSegment_paren) ?_
      rw [if_pos rfl]
      exact ih hseen.tail.left_of_append hin
  | @deref e us h ih =>
      have hprimary := h.primary hseen
      rcases hprimary.evalReads_star lifo cpu with ⟨f, hsplit⟩
      have hreads := List.forall_mem_append.1 hin
      rw [hsplit]
      refine Gives.after (recordingOps_check hprimary.checkSegment_star) ?_
      rw [if_neg (by decide)]
      exact (ih hseen.tail hreads.1).deref (hreads.2 _ (List.mem_singleton_self _))
  | @bin op a b us vs ha hb iha ihb =>
      rcases ha.evalReads_bin lifo cpu hb with ⟨f, hsplit⟩
      rw [Term.reads_bin] at hin
      have hreads := List.forall_mem_append.1 hin
      rw [hsplit]
      refine Gives.after (recordingOps_check (ha.checkSegment_bin hb)) ?_
      rw [if_neg (by decide)]
      exact (iha hseen.left_of_append hreads.1).bin op (ihb hseen.right_of_append.tail hreads.2)
  | up _ ih => exact ih hseen hin

end Lifo

/-! ## The run over the source's stack -/

section CodeStack

variable {cpu : CPUState} {s s' : Recording EvalState Word}

/-- What the bracket test over the source's stack finds, if it returns, is what the one over the
unbounded stack finds. -/
theorem recordingOps_check_ok {ts : List TokenType} {b c : Bool}
    (h : ∀ s, checkSegment lifo ts s = .ok b s)
    (hrun : (recordingOps codeStack cpu).check ts s = .ok c s') :
    c = b ∧ s' = s ∧ checkSegment codeStack ts s.state = .ok b s.state := by
  change withEvents s.events (checkSegment codeStack ts s.state) = .ok c s' at hrun
  rcases checkSegment_agrees ts s.state with heq | ⟨-, t, herr⟩
  · rw [heq, h] at hrun
    cases hrun
    exact ⟨rfl, rfl, heq.trans (h _)⟩
  · rw [herr] at hrun
    cases hrun

/-- A run that returns was on an expression that fits the source's stack. -/
theorem Spelled.nesting_of_ok {k : Nat} {e : Term} {us : List Piece} (h : Spelled k e us)
    (hseen : StarsSeen us) {v : Word}
    (hrun : evalReads codeStack cpu (us.map Piece.token) s = .ok v s') :
    nesting 0 (us.map Piece.type) < stackInitSize := by
  induction h generalizing s v s' with
  | dec _ _ _ | hex _ _ _ | reg _ _ => exact Nat.zero_lt_succ 99
  | @paren e us h ih =>
      rcases evalReads_paren codeStack cpu us with ⟨f, hsplit⟩
      rw [hsplit] at hrun
      rcases bind_eq_ok.1 hrun with ⟨c, s₁, hcheck, -⟩
      rcases recordingOps_check_ok h.checkSegment_paren hcheck with ⟨-, -, hcode⟩
      rw [List.map_cons, List.map_append]
      exact checkSegment_true_nesting hcode
  | @deref e us h ih =>
      have hprimary := h.primary hseen
      rcases hprimary.evalReads_star codeStack cpu with ⟨f, hsplit⟩
      rw [hsplit] at hrun
      rcases bind_eq_ok.1 hrun with ⟨c, s₁, hcheck, hrest⟩
      rcases recordingOps_check_ok hprimary.checkSegment_star hcheck with ⟨rfl, -, -⟩
      rw [if_neg (by decide)] at hrest
      rcases bind_eq_ok.1 hrest with ⟨val1, s₂, hrun', -⟩
      have hnest := ih hseen.tail hrun'
      exact Nat.max_lt.2 ⟨Nat.zero_lt_succ 99, hnest⟩
  | @bin op a b us vs ha hb iha ihb =>
      rcases ha.evalReads_bin codeStack cpu hb with ⟨f, hsplit⟩
      rw [hsplit] at hrun
      rcases bind_eq_ok.1 hrun with ⟨c, s₁, hcheck, hrest⟩
      rcases recordingOps_check_ok (ha.checkSegment_bin hb) hcheck with ⟨rfl, -, -⟩
      rw [if_neg (by decide)] at hrest
      rcases bind_eq_ok.1 hrest with ⟨val1, s₂, hrun₁, hrest'⟩
      rcases bind_eq_ok.1 hrest' with ⟨val2, s₃, hrun₂, -⟩
      have hnest₁ := iha hseen.left_of_append hrun₁
      have hnest₂ := ihb hseen.right_of_append.tail hrun₂
      rw [List.map_append, List.map_cons, Piece.type_symbol, ha.nested.nesting_split op.priority_type]
      exact Nat.max_lt.2 ⟨hnest₁, hnest₂⟩
  | up _ ih => exact ih hseen hrun

end CodeStack

end Nemu
