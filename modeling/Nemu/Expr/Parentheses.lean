import Nemu.Expr.Stack
import Nemu.Memory.Paddr

/-!
# check_parentheses

The test whether `tokens[p .. q]` is surrounded by a matched pair of round brackets.  It is
written over a stack implementation: the source's stack gives `checkParentheses`, an unbounded
LIFO gives the function it is meant to compute, and `checkParenthesesLoop_sim` says that the two
agree until the block of the source's stack is full.
-/

namespace Nemu

open StateRules

/-! ## State of an evaluation -/

/-- The lines that an evaluation logs. -/
inductive EvalMessage
  | startBiggerThanEnd
  | expressionIsIllegal
  | divisionByZero
  | strangeOperation
  | noSuchRegister
  | badExpression
  | makeTokenFailed
  deriving DecidableEq, Repr

/-- `success` is the flag behind the pointer.  In `expr.c`, `bool` is `int`. -/
structure EvalState where
  success : Word
  bus : Bus
  messages : List EvalMessage

/-- The state in which a caller starts an evaluation. -/
def EvalState.start (bus : Bus) : EvalState :=
  { success := 1, bus, messages := [] }

abbrev OnEval := EStateM Fault EvalState

def log (m : EvalMessage) : OnEval Unit :=
  modify fun s => { s with messages := s.messages ++ [m] }

/-- `*success = false` -/
def clearSuccess : OnEval Unit :=
  modify fun s => { s with success := 0 }

def liftStack {α : Type} (x : Except Fault α) : OnEval α :=
  match x with
  | .ok a => pure a
  | .error e => throw e

/-! ## The scan -/

section Scan

variable {σ : Type} (ops : StackOps σ)

/-- The three closing cases: `opener` is the bracket that the popped element must be.  `Pop`
fails on exactly the empty stack that the source tests for. -/
def closeBracket (opener : TokenType) (S : σ) : OnEval (Bool × σ) := do
  match ← liftStack (ops.pop S) with
  | some (m, S) =>
      if m = opener then
        return (true, S)
      else
        clearSuccess
        return (false, S)
  | none =>
      log .badExpression
      clearSuccess
      return (false, S)

/-- The `while` loop from index `i` on; the list holds `temp[i .. q]`.  The result is the pair of
`flag` and the stack. -/
def checkParenthesesLoop (p : Int) : Int → List TokenType → σ → OnEval (Bool × σ)
  | _, [], S => return (true, S)
  | i, e :: rest, S =>
      let close (opener : TokenType) : OnEval (Bool × σ) := do
        let (flag, S) ← closeBracket ops opener S
        if flag then checkParenthesesLoop p (i + 1) rest S else return (false, S)
      match e with
      | .lparen | .lbracket | .lbrace =>
          if !ops.isEmpty S || i == p then do
            let S ← liftStack (ops.push S e)
            checkParenthesesLoop p (i + 1) rest S
          else
            return (false, S)
      | .rparen => close .lparen
      | .rbracket => close .lbracket
      | .rbrace => close .lbrace
      | _ => checkParenthesesLoop p (i + 1) rest S

def checkParenthesesWith (tokens : Nat → Token) (p q : Int) : OnEval Bool := do
  let temp := (segment tokens p q).map Token.type
  if (tokens p.toNat).type ≠ .lparen ∨ (tokens q.toNat).type ≠ .rparen then
    return false
  else
    let (flag, S) ← checkParenthesesLoop ops p p temp ops.init
    return flag && ops.isEmpty S

end Scan

def checkParentheses (tokens : Nat → Token) (p q : Int) : OnEval Bool :=
  checkParenthesesWith codeStack tokens p q

/-! ## Nesting -/

namespace TokenType

def isOpen : TokenType → Bool
  | .lparen | .lbracket | .lbrace => true
  | _ => false

/-- The opening bracket that a closing one must meet. -/
def opener? : TokenType → Option TokenType
  | .rparen => some .lparen
  | .rbracket => some .lbracket
  | .rbrace => some .lbrace
  | _ => none

def isClose (t : TokenType) : Bool := t.opener?.isSome

end TokenType

/-! ## One iteration of the scan -/

section Scan

variable {σ : Type} (ops : StackOps σ) (p i : Int) {e : TokenType} (rest : List TokenType) (S : σ)

theorem checkParenthesesLoop_open (he : e.isOpen = true) :
    checkParenthesesLoop ops p i (e :: rest) S =
      if !ops.isEmpty S || i == p then
        liftStack (ops.push S e) >>= fun S => checkParenthesesLoop ops p (i + 1) rest S
      else pure (false, S) := by
  cases e <;> simp [TokenType.isOpen] at he <;> rfl

theorem checkParenthesesLoop_close {o : TokenType} (he : e.opener? = some o) :
    checkParenthesesLoop ops p i (e :: rest) S =
      closeBracket ops o S >>= fun r =>
        if r.1 then checkParenthesesLoop ops p (i + 1) rest r.2 else pure (false, r.2) := by
  cases e <;> simp [TokenType.opener?] at he <;> subst he <;> rfl

theorem checkParenthesesLoop_other (ho : e.isOpen = false) (hc : e.opener? = none) :
    checkParenthesesLoop ops p i (e :: rest) S = checkParenthesesLoop ops p (i + 1) rest S := by
  cases e <;> simp [TokenType.isOpen, TokenType.opener?] at ho hc <;> rfl

end Scan

/-- The number of open brackets after a token, `h` being the number before it. -/
def openAfter (h : Nat) (t : TokenType) : Nat :=
  if t.isOpen then h + 1 else if t.isClose then h - 1 else h

theorem openAfter_open (h : Nat) {t : TokenType} (ho : t.isOpen = true) :
    openAfter h t = h + 1 := by
  simp [openAfter, ho]

theorem openAfter_close (h : Nat) {t o : TokenType} (ho : t.isOpen = false)
    (hc : t.opener? = some o) : openAfter h t = h - 1 := by
  simp [openAfter, ho, TokenType.isClose, hc]

theorem openAfter_other (h : Nat) {t : TokenType} (ho : t.isOpen = false) (hc : t.opener? = none) :
    openAfter h t = h := by
  simp [openAfter, ho, TokenType.isClose, hc]

/-- The largest number of brackets that are open at a time, starting with `h`. -/
def nesting (h : Nat) : List TokenType → Nat
  | [] => h
  | t :: rest => max h (nesting (openAfter h t) rest)

theorem le_nesting (h : Nat) (ts : List TokenType) : h ≤ nesting h ts := by
  cases ts with
  | nil =>
      exact Nat.le_refl h
  | cons t rest =>
      exact Nat.le_max_left _ _

theorem nesting_rest_le (h : Nat) (t : TokenType) (rest : List TokenType) :
    nesting (openAfter h t) rest ≤ nesting h (t :: rest) :=
  Nat.le_max_right _ _

/-! ## Both stacks give the same answer -/

/-- The outcomes that the two scans can have: the same flag and state with related stacks, or a
store outside the block when `capacity` brackets are open. -/
def SameScan (n : Nat) (x : EStateM.Result Fault EvalState (Bool × Stack TokenType))
    (y : EStateM.Result Fault EvalState (Bool × List TokenType)) : Prop :=
  (∃ flag S L s, x = .ok (flag, S) s ∧ y = .ok (flag, L) s ∧ S.Holds L) ∨
    (stackInitSize ≤ n ∧ ∃ s, x = .error .bounds s)

theorem SameScan.of_le {m n : Nat} (hmn : m ≤ n)
    {x : EStateM.Result Fault EvalState (Bool × Stack TokenType)}
    {y : EStateM.Result Fault EvalState (Bool × List TokenType)} (h : SameScan m x y) :
    SameScan n x y := by
  rcases h with h | ⟨hm, herr⟩
  · exact Or.inl h
  · exact Or.inr ⟨Nat.le_trans hm hmn, herr⟩

theorem closeBracket_sim (opener : TokenType) {S : Stack TokenType} {L : List TokenType}
    (h : S.Holds L) (s : EvalState) :
    ∃ flag S' L' s', closeBracket codeStack opener S s = .ok (flag, S') s' ∧
      closeBracket lifo opener L s = .ok (flag, L') s' ∧ S'.Holds L' ∧
      (flag = true → L'.length = L.length - 1) := by
  cases L with
  -- an empty stack, the right bracket on top, or another one
  | nil =>
      have hpop : codeStack.pop S = .ok none := h.pop_nil
      refine ⟨false, S, [], _, ?_, rfl, h, by simp⟩
      simp only [closeBracket, hpop]
      rfl
  | cons e L =>
      rcases h.pop_cons with ⟨S', hpop, hS'⟩
      have hpop' : codeStack.pop S = .ok (some (e, S')) := hpop
      by_cases heq : e = opener
      · refine ⟨true, S', L, s, ?_, ?_, hS', by simp⟩
        · simp only [closeBracket, hpop', liftStack, pure_bind, heq, if_true]
          rfl
        · simp only [closeBracket, lifo, liftStack, pure_bind, heq, if_true]
          rfl
      · refine ⟨false, S', L, { s with success := 0 }, ?_, ?_, hS', by simp⟩
        · simp only [closeBracket, hpop', liftStack, pure_bind, heq, if_false]
          rfl
        · simp only [closeBracket, lifo, liftStack, pure_bind, heq, if_false]
          rfl

theorem liftStack_ok {α : Type} (a : α) (s : EvalState) :
    liftStack (.ok a : Except Fault α) s = .ok a s := rfl

theorem checkParenthesesLoop_sim (p i : Int) (ts : List TokenType) {S : Stack TokenType}
    {L : List TokenType} (h : S.Holds L) (s : EvalState) :
    SameScan (nesting L.length ts) (checkParenthesesLoop codeStack p i ts S s)
      (checkParenthesesLoop lifo p i ts L s) := by
  induction ts generalizing i S L s with
  | nil =>
      exact Or.inl ⟨true, S, L, s, rfl, rfl, h⟩
  | cons e rest ih =>
      cases hopen : e.isOpen with
      | true =>
          have hafter := openAfter_open L.length hopen
          have hempty : codeStack.isEmpty S = lifo.isEmpty L := h.stackEmpty
          rw [checkParenthesesLoop_open codeStack p i rest S hopen,
            checkParenthesesLoop_open lifo p i rest L hopen, hempty]
          by_cases hc : (!lifo.isEmpty L || i == p) = true
          · rw [if_pos hc, if_pos hc]
            by_cases hfit : L.length + 1 < stackInitSize
            · rcases (h.push e).1 hfit with ⟨S', hpush, hS'⟩
              have hpush' : codeStack.push S e = .ok S' := hpush
              have hrest := ih (i + 1) hS' s
              rw [hpush', bind_ok (liftStack_ok S' s)]
              change SameScan _ _ (checkParenthesesLoop lifo p (i + 1) rest (e :: L) s)
              rw [List.length_cons, ← hafter] at hrest
              exact hrest.of_le (nesting_rest_le L.length e rest)
            · -- the block is full: the store of the source's `push` leaves it
              have hfull : stackInitSize ≤ L.length + 1 := Nat.not_lt.1 hfit
              have hpush' : codeStack.push S e = .error .bounds := (h.push e).2 hfull
              have hdeep : stackInitSize ≤ nesting L.length (e :: rest) := by
                have hle := le_nesting (L.length + 1) rest
                simp only [nesting, hafter]
                omega
              refine Or.inr ⟨hdeep, s, ?_⟩
              rw [hpush']
              rfl
          · rw [if_neg hc, if_neg hc]
            exact Or.inl ⟨false, S, L, s, rfl, rfl, h⟩
      | false =>
          cases hclose : e.opener? with
          | some o =>
              have hafter := openAfter_close L.length hopen hclose
              rcases closeBracket_sim o h s with ⟨flag, S', L', s', hcode, hlifo, hS', hlen⟩
              rw [checkParenthesesLoop_close codeStack p i rest S hclose,
                checkParenthesesLoop_close lifo p i rest L hclose, bind_ok hcode, bind_ok hlifo]
              cases flag with
              | true =>
                  have hrest := ih (i + 1) hS' s'
                  rw [hlen rfl, ← hafter] at hrest
                  exact hrest.of_le (nesting_rest_le L.length e rest)
              | false =>
                  exact Or.inl ⟨false, S', L', s', rfl, rfl, hS'⟩
          | none =>
              have hafter := openAfter_other L.length hopen hclose
              rw [checkParenthesesLoop_other codeStack p i rest S hopen hclose,
                checkParenthesesLoop_other lifo p i rest L hopen hclose]
              have hrest := ih (i + 1) h s
              rw [← hafter] at hrest
              exact hrest.of_le (nesting_rest_le L.length e rest)

/-- A scan that runs to the end has been inside the block of the source's stack. -/
theorem checkParenthesesLoop_true_nesting {p i : Int} {ts : List TokenType} {S S' : Stack TokenType}
    {L : List TokenType} (h : S.Holds L) {s s' : EvalState}
    (hrun : checkParenthesesLoop codeStack p i ts S s = .ok (true, S') s') :
    nesting L.length ts < stackInitSize := by
  induction ts generalizing i S L s with
  | nil => exact h.fits
  | cons e rest ih =>
      have hfits := h.fits
      cases hopen : e.isOpen with
      | true =>
          have hafter := openAfter_open L.length hopen
          rw [checkParenthesesLoop_open codeStack p i rest S hopen] at hrun
          by_cases hc : (!codeStack.isEmpty S || i == p) = true
          · rw [if_pos hc] at hrun
            by_cases hfit : L.length + 1 < stackInitSize
            · rcases (h.push e).1 hfit with ⟨S₁, hpush, hS₁⟩
              have hpush' : codeStack.push S e = .ok S₁ := hpush
              rw [hpush', bind_ok (liftStack_ok S₁ s)] at hrun
              have hrest := ih hS₁ hrun
              rw [List.length_cons] at hrest
              rw [nesting, hafter]
              omega
            · have hpush' : codeStack.push S e = .error .bounds := (h.push e).2 (Nat.not_lt.1 hfit)
              rw [hpush'] at hrun
              cases hrun
          · rw [if_neg hc] at hrun
            cases hrun
      | false =>
          cases hclose : e.opener? with
          | some o =>
              have hafter := openAfter_close L.length hopen hclose
              rcases closeBracket_sim o h s with ⟨flag, S₁, L₁, s₁, hcode, -, hS₁, hlen⟩
              rw [checkParenthesesLoop_close codeStack p i rest S hclose, bind_ok hcode] at hrun
              cases flag with
              | true =>
                  have hrest := ih hS₁ hrun
                  rw [hlen rfl] at hrest
                  rw [nesting, hafter]
                  omega
              | false => cases hrun
          | none =>
              have hafter := openAfter_other L.length hopen hclose
              rw [checkParenthesesLoop_other codeStack p i rest S hopen hclose] at hrun
              have hrest := ih h hrun
              rw [nesting, hafter]
              omega

/-- With the source's stack, `check_parentheses` computes what it computes with an unbounded one,
or stores outside the stack's block at 100 open brackets. -/
theorem checkParentheses_sim (tokens : Nat → Token) (p q : Int) (s : EvalState) :
    checkParentheses tokens p q s = checkParenthesesWith lifo tokens p q s ∨
      (stackInitSize ≤ nesting 0 ((segment tokens p q).map Token.type) ∧
        ∃ s', checkParentheses tokens p q s = .error .bounds s') := by
  unfold checkParentheses checkParenthesesWith
  by_cases hends : (tokens p.toNat).type ≠ .lparen ∨ (tokens q.toNat).type ≠ .rparen
  · simp only [if_pos hends, true_or]
  · simp only [if_neg hends]
    have hinit : codeStack.init.Holds lifo.init := Stack.Holds.init _
    rcases checkParenthesesLoop_sim p p ((segment tokens p q).map Token.type) hinit s with
      ⟨flag, S, L, s', hcode, hlifo, hS⟩ | ⟨hdeep, s', herr⟩
    · left
      have hempty : codeStack.isEmpty S = lifo.isEmpty L := hS.stackEmpty
      rw [bind_ok hcode, bind_ok hlifo, hempty]
    · right
      exact ⟨hdeep, s', bind_error herr⟩

end Nemu
