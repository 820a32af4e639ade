import Nemu.Lib.Recording
import Nemu.Expr.Segment

/-!
# What an evaluation reads and calls

`eval`, `check_parentheses` and `find_dominated_op` once more, with indices, loops and recursion as
in the source: every element of the token array that they read, every recursive call and every
operator that is chosen is recorded with the range of the call it belongs to.  The recursion runs on
fuel, so that nothing about its termination is built in.
-/

namespace Nemu

open StateRules

/-! ## Events -/

/-- What happens in a call `eval(p, q)`. -/
inductive EvalAction
  | read (i : Int)
  | call (p q : Int)
  | dominated (op : Int)
  deriving DecidableEq

structure EvalEvent where
  p : Int
  q : Int
  action : EvalAction
  deriving DecidableEq

namespace EvalEvent

/-- Elements and operators are in the range of the call, and a recursive call is on a part of it
with fewer elements. -/
def InRange (e : EvalEvent) : Prop :=
  match e.action with
  | .read i => e.p ≤ i ∧ i ≤ e.q
  | .call p q => e.p ≤ p ∧ q ≤ e.q ∧ (q + 1 - p).toNat < (e.q + 1 - e.p).toNat
  | .dominated op => e.p ≤ op ∧ op ≤ e.q

/-- The event is in its range and one of a call on a part of `[p, q]`. -/
def Inside (p q : Int) (e : EvalEvent) : Prop := e.InRange ∧ p ≤ e.p ∧ e.q ≤ q

theorem Inside.mono {p q p' q' : Int} {e : EvalEvent} (h : e.Inside p' q') (hp : p ≤ p')
    (hq : q' ≤ q) : e.Inside p q := by
  rcases h with ⟨hrange, hlo, hhi⟩
  exact ⟨hrange, Int.le_trans hp hlo, Int.le_trans hhi hq⟩

end EvalEvent

abbrev OnRecorded := Recorder Fault EvalState EvalEvent

/-- `tokens[i]` in a call `eval(p, q)`. -/
def readToken (tokens : Nat → Token) (p q i : Int) : OnRecorded Token := do
  emit ⟨p, q, .read i⟩
  return tokens i.toNat

/-! ## The functions of the source -/

/-- The `for` loop of `check_parentheses` from `i` on: `temp[i] = tokens[i].type`. -/
def copyTypes (tokens : Nat → Token) (p q i : Int) : OnRecorded (List TokenType) :=
  if i ≤ q then do
    let t ← readToken tokens p q i
    let rest ← copyTypes tokens p q (i + 1)
    return t.type :: rest
  else
    return []
termination_by (q + 1 - i).toNat

/-- `check_parentheses(p, q)`.  After the copy it works on `temp` alone, whose index 0 stands for
the source's `p`. -/
def checkParenthesesRecorded (tokens : Nat → Token) (p q : Int) : OnRecorded Bool := do
  let temp ← copyTypes tokens p q p
  if temp[0]? ≠ some .lparen ∨ temp[(q - p).toNat]? ≠ some .rparen then
    return false
  else do
    let (flag, S) ← unrecorded (checkParenthesesLoop codeStack p p temp codeStack.init)
    return flag && codeStack.isEmpty S

/-- The locals of `find_dominated_op` that the `switch` changes. -/
structure DominatedScan where
  op : Int
  opPriority : Nat
  numLeft : Int

/-- One turn of the `switch` at `position`; every case also moves on to the next position. -/
def DominatedScan.turn (s : DominatedScan) (position : Int) (t : TokenType) : DominatedScan :=
  match t with
  | .lparen => { s with numLeft := s.numLeft + 1 }
  | .rparen => { s with numLeft := s.numLeft - 1 }
  | t =>
      match t.priority with
      | some cur =>
          if s.numLeft = 0 ∧ cur ≤ s.opPriority then
            { s with op := position, opPriority := cur }
          else
            s
      | none => s

/-- The `while` loop of `find_dominated_op(p, q)` from `position` on. -/
def scanDominatedOp (tokens : Nat → Token) (p q position : Int) (s : DominatedScan) :
    OnRecorded Int :=
  if position ≤ q then do
    let t ← readToken tokens p q position
    scanDominatedOp tokens p q (position + 1) (s.turn position t.type)
  else
    return s.op
termination_by (q + 1 - position).toNat

def findDominatedOpRecorded (tokens : Nat → Token) (p q : Int) : OnRecorded Int := do
  let op ← scanDominatedOp tokens p q p { op := p, opPriority := 100, numLeft := 0 }
  emit ⟨p, q, .dominated op⟩
  return op

/-- `eval(p, q)` with at most `fuel` nested calls. -/
def evalRecorded (cpu : CPUState) (tokens : Nat → Token) : Nat → Int → Int → OnRecorded Word
  | 0, _, _ => outOfFuel
  | fuel + 1, p, q =>
      let call (p' q' : Int) : OnRecorded Word := do
        emit ⟨p, q, .call p' q'⟩
        evalRecorded cpu tokens fuel p' q'
      if p > q then
        unrecorded do
          log .startBiggerThanEnd
          return 0
      else if p = q then do
        let t ← readToken tokens p q p
        unrecorded (evalLeaf cpu t)
      else do
        let surrounded ← checkParenthesesRecorded tokens p q
        if surrounded then
          call (p + 1) (q - 1)
        else do
          let op ← findDominatedOpRecorded tokens p q
          let t ← readToken tokens p q op
          if t.type ≠ .deref then do
            let val1 ← call p (op - 1)
            let val2 ← call (op + 1) q
            -- the `switch` reads the operator's type again
            let t ← readToken tokens p q op
            unrecorded (applyOp t.type val1 val2)
          else do
            let val1 ← call (op + 1) q
            unrecorded (liftBus (vaddrRead val1 4))

/-! ## Loops -/

section Loops

variable (tokens : Nat → Token) {p q : Int}

theorem readToken_records {i : Int} (hp : p ≤ i) (hq : i ≤ q) :
    Records (EvalEvent.Inside p q) (readToken tokens p q i)
      (pure (tokens i.toNat) : OnEval Token) :=
  (Records.pure _).emit ⟨⟨hp, hq⟩, Int.le_refl p, Int.le_refl q⟩

theorem copyTypes_records {i : Int} (hp : p ≤ i) :
    Records (EvalEvent.Inside p q) (copyTypes tokens p q i)
      (pure ((segment tokens i q).map Token.type)) := by
  induction hn : (q + 1 - i).toNat generalizing i with
  | zero =>
      have hend : ¬ i ≤ q := by omega
      rw [copyTypes, if_neg hend, segment_nil (by omega)]
      exact Records.pure []
  | succ n ih =>
      have hi : i ≤ q := by omega
      have hrest := ih (i := i + 1) (by omega) (by omega)
      have hcons := hrest.bind (fun types => Records.pure ((tokens i.toNat).type :: types))
      rw [copyTypes, if_pos hi, segment_cons hi]
      exact (readToken_records tokens hp hi).bind_value hcons

theorem DominatedScan.turn_operator (s : DominatedScan) (position : Int) {t : TokenType} {k : Nat}
    (hk : t.priority = some k) :
    s.turn position t =
      if s.numLeft = 0 ∧ k ≤ s.opPriority then { s with op := position, opPriority := k } else s := by
  cases t <;> simp [TokenType.priority] at hk <;> subst hk <;> rfl

theorem findDominatedOpLoop_turn (position : Int) (t : TokenType) (rest : List TokenType)
    (s : DominatedScan) :
    findDominatedOpLoop position (t :: rest) s.op s.opPriority s.numLeft =
      findDominatedOpLoop (position + 1) rest (s.turn position t).op
        (s.turn position t).opPriority (s.turn position t).numLeft := by
  by_cases hk : t.priority = none
  · cases t <;> simp [TokenType.priority] at hk <;> rfl
  · -- an operator: the test of the depth and the priority decides
    rcases Option.ne_none_iff_exists'.1 hk with ⟨k, hk⟩
    rw [findDominatedOpLoop_operator _ _ _ _ _ hk, s.turn_operator position hk]
    by_cases hc : s.numLeft = 0 ∧ k ≤ s.opPriority
    · simp only [if_pos hc]
    · simp only [if_neg hc]

theorem scanDominatedOp_records {position : Int} (s : DominatedScan) (hp : p ≤ position) :
    Records (EvalEvent.Inside p q) (scanDominatedOp tokens p q position s)
      (pure (findDominatedOpLoop position ((segment tokens position q).map Token.type) s.op
        s.opPriority s.numLeft)) := by
  induction hm : (q + 1 - position).toNat generalizing position s with
  | zero =>
      have hend : ¬ position ≤ q := by omega
      rw [scanDominatedOp, if_neg hend, segment_nil (by omega)]
      exact Records.pure s.op
  | succ m ih =>
      have hi : position ≤ q := by omega
      have hrest := @ih (position + 1) (s.turn position (tokens position.toNat).type)
        (by omega) (by omega)
      rw [scanDominatedOp, if_pos hi, segment_cons hi, List.map_cons, findDominatedOpLoop_turn]
      exact (readToken_records tokens hp hi).bind_value hrest

/-- `find_dominated_op` chooses an index of the range. -/
theorem findDominatedOpRecorded_records (h : p ≤ q) :
    Records (EvalEvent.Inside p q) (findDominatedOpRecorded tokens p q)
      (pure (findDominatedOp tokens p q)) := by
  have hscan := scanDominatedOp_records tokens (q := q)
    { op := p, opPriority := 100, numLeft := 0 } (Int.le_refl p)
  have hevent : EvalEvent.Inside p q ⟨p, q, .dominated (findDominatedOp tokens p q)⟩ :=
    ⟨findDominatedOp_mem tokens h, Int.le_refl p, Int.le_refl q⟩
  exact hscan.bind_value ((Records.pure _).emit hevent)

theorem checkParenthesesRecorded_records (h : p ≤ q) :
    Records (EvalEvent.Inside p q) (checkParenthesesRecorded tokens p q)
      (checkParentheses tokens p q) := by
  have hfirst : ((segment tokens p q).map Token.type)[0]? = some (tokens p.toNat).type := by
    rw [segment_cons h]
    rfl
  have hlast : ((segment tokens p q).map Token.type)[(q - p).toNat]? =
      some (tokens q.toNat).type := by
    have hidx : p + ((q - p).toNat : Int) = q := by omega
    rw [List.getElem?_map, getElem?_segment (by omega), hidx]
    rfl
  have hcopy := copyTypes_records tokens (q := q) (Int.le_refl p)
  unfold checkParenthesesRecorded checkParentheses checkParenthesesWith
  refine hcopy.bind_value ?_
  simp only [hfirst, hlast, ne_eq, Option.some.injEq]
  refine Records.ite (fun _ => Records.pure false) fun _ => ?_
  exact (Records.unrecorded _).bind fun r => Records.pure (r.1 && codeStack.isEmpty r.2)

end Loops

/-! ## The recursion -/

section Recursion

variable (cpu : CPUState) (tokens : Nat → Token)

/-- A recursive call on a smaller part of the range. -/
theorem call_records {fuel : Nat} {p q p' q' : Int} (hp : p ≤ p') (hq : q' ≤ q)
    (hless : (q' + 1 - p').toNat < (q + 1 - p).toNat)
    (ih : Records (EvalEvent.Inside p' q') (evalRecorded cpu tokens fuel p' q')
      (eval cpu tokens p' q')) :
    Records (EvalEvent.Inside p q)
      (emit ⟨p, q, .call p' q'⟩ >>= fun _ => evalRecorded cpu tokens fuel p' q')
      (eval cpu tokens p' q') := by
  have hevent : EvalEvent.Inside p q ⟨p, q, .call p' q'⟩ :=
    ⟨⟨hp, hq, hless⟩, Int.le_refl p, Int.le_refl q⟩
  exact (ih.mono fun e he => he.mono hp hq).emit hevent

theorem evalRecorded_records {fuel : Nat} {p q : Int} (hfuel : (q + 1 - p).toNat < fuel) :
    Records (EvalEvent.Inside p q) (evalRecorded cpu tokens fuel p q) (eval cpu tokens p q) := by
  induction fuel generalizing p q with
  | zero =>
      omega
  | succ fuel ih =>
      -- every call is on a range for which one unit of fuel less is enough
      have hcall : ∀ p' q', p ≤ p' → q' ≤ q → (q' + 1 - p').toNat < (q + 1 - p).toNat →
          Records (EvalEvent.Inside p q)
            (emit ⟨p, q, .call p' q'⟩ >>= fun _ => evalRecorded cpu tokens fuel p' q')
            (eval cpu tokens p' q') := by
        intro p' q' hp hq hless
        exact call_records cpu tokens hp hq hless (ih (by omega))
      rw [evalRecorded, eval]
      by_cases hgt : p > q
      · rw [if_pos hgt, dif_pos hgt]
        exact Records.unrecorded _
      rw [if_neg hgt, dif_neg hgt]
      have hpq : p ≤ q := Int.not_lt.1 hgt
      refine Records.ite (fun _ => ?_) fun hne => ?_
      · exact (readToken_records tokens (Int.le_refl p) hpq).bind_value (Records.unrecorded _)
      refine (checkParenthesesRecorded_records tokens hpq).bind fun surrounded => ?_
      refine Records.ite (fun _ => hcall _ _ (by omega) (by omega) (by omega)) fun _ => ?_
      have hmem := findDominatedOp_mem tokens hpq
      have hread := readToken_records tokens hmem.1 hmem.2
      refine (findDominatedOpRecorded_records tokens hpq).bind_value ?_
      refine hread.bind_value ?_
      have hright := hcall (findDominatedOp tokens p q + 1) q (by omega) (by omega) (by omega)
      refine Records.ite (fun _ => ?_) fun _ => ?_
      · have hleft := hcall p (findDominatedOp tokens p q - 1) (by omega) (by omega) (by omega)
        refine hleft.bind fun val1 => hright.bind fun val2 => ?_
        exact hread.bind_value (Records.unrecorded _)
      · exact hright.bind fun val1 => Records.unrecorded _

/-- On any content of the token array, an evaluation of `[p, q]` with more fuel than the range has
elements does not run out of it, does what `eval` does, and only reads, calls and chooses inside
the range of the call in question. -/
theorem evalRecorded_inside (p q : Int) (fuel : Nat) (s : EvalState)
    (hfuel : (q + 1 - p).toNat < fuel) :
    let run := evalRecorded cpu tokens fuel p q { state := s, events := [] }
    (∀ s', run ≠ .error none s') ∧ (∀ e ∈ (final run).events, e.Inside p q) ∧
      run = withEvents (final run).events (eval cpu tokens p q s) := by
  intro run
  rcases evalRecorded_records cpu tokens hfuel { state := s, events := [] } with
    ⟨events, hinside, hrun⟩
  have hrun' : run = withEvents events (eval cpu tokens p q s) := hrun
  have hevents : (final run).events = events := by rw [hrun', final_withEvents]
  refine ⟨?_, ?_, ?_⟩
  · intro s'
    rw [hrun']
    exact withEvents_ne_outOfFuel events _ s'
  · rw [hevents]
    exact hinside
  · rw [hevents]
    exact hrun'

end Recursion

/-- A malformed range: it starts with a closing bracket and ends with an operator. -/
theorem evalRecorded_inside_malformed :
    let tokens := tokensOf [⟨.rparen, []⟩, ⟨.tkDecimal, ['1']⟩, ⟨.times, []⟩]
    let run := evalRecorded CPUState.zero tokens 4 0 2
      { state := EvalState.start .zero, events := [] }
    (∀ s', run ≠ .error none s') ∧ (∀ e ∈ (final run).events, e.Inside 0 2) ∧
      run = withEvents (final run).events
        (eval CPUState.zero tokens 0 2 (EvalState.start .zero)) :=
  evalRecorded_inside CPUState.zero
    (tokensOf [⟨.rparen, []⟩, ⟨.tkDecimal, ['1']⟩, ⟨.times, []⟩]) 0 2 4
    (EvalState.start .zero) (by decide)

end Nemu
