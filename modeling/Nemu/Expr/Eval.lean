import Nemu.Expr.DominatedOp
import Nemu.Expr.Parentheses
import Nemu.X86.Reg

/-!
# The recursive evaluator

`eval`, `get_gpr` and `htoi` of `src/monitor/debug/expr.c`.  `int` arithmetic is taken modulo 2^32,
as the compiler does it.

`eval` works on a range of indices of the token array.  `evalSegment` is the same recursion on the
list of tokens in the range; `eval_eq_evalSegment` says that the two agree, so that everything
below is about lists of tokens.
-/

namespace Nemu

open StateRules

/-! ## Leaves -/

def hexDigit (c : Char) : Option Word :=
  if '0' ≤ c ∧ c ≤ '9' then some (BitVec.ofNat 32 (c.toNat - '0'.toNat))
  else if 'a' ≤ c ∧ c ≤ 'f' then some (BitVec.ofNat 32 (c.toNat - 'a'.toNat) + 10)
  else if 'A' ≤ c ∧ c ≤ 'F' then some (BitVec.ofNat 32 (c.toNat - 'A'.toNat) + 10)
  else none

/-- The loop of `htoi` with the number read so far; the list is the string from `s[i]` on.  The
test for `0x` stands inside the loop and moves `i` two characters ahead, to a character that the
same iteration then converts. -/
def htoiLoop (n : Word) : List Char → Word
  | [] => n
  | c :: s =>
      if c = '\n' then n
      else if c = '0' ∧ (s.head? = some 'x' ∨ s.head? = some 'X') then
        match s with
        | _ :: d :: s =>
            match hexDigit d with
            | some v => htoiLoop (n * 16 + v) s
            | none => -1
        | _ => -1
      else
        match hexDigit c with
        | some v => htoiLoop (n * 16 + v) s
        | none => -1

def htoi (s : List Char) : Word := htoiLoop 0 s

/-- The loop of the decimal case of `eval`. -/
def decimal (s : List Char) : Word :=
  s.foldl (fun number c => number * 10 + (BitVec.ofNat 32 c.toNat - 48)) 0

def nameEax : List Char := ['$', 'e', 'a', 'x']
def nameEcx : List Char := ['$', 'e', 'c', 'x']
def nameEdx : List Char := ['$', 'e', 'd', 'x']
def nameEbx : List Char := ['$', 'e', 'b', 'x']

/-- The comparisons of `get_gpr` in their order.  From the fifth on, all compare with `$eax`. -/
def getGprTable (cpu : CPUState) : List (List Char × Word) :=
  [(nameEax, cpu.eax), (nameEcx, cpu.ecx), (nameEdx, cpu.edx), (nameEbx, cpu.ebx),
    (nameEax, cpu.esp), (nameEax, cpu.ebp), (nameEax, cpu.esi), (nameEax, cpu.edi),
    (nameEax, (cpu.gpr16 rEax).setWidth 32), (nameEax, (cpu.gpr16 rEcx).setWidth 32),
    (nameEax, (cpu.gpr16 rEdx).setWidth 32), (nameEax, (cpu.gpr16 rEbx).setWidth 32),
    (nameEax, (cpu.gpr16 rEsp).setWidth 32), (nameEax, (cpu.gpr16 rEbp).setWidth 32),
    (nameEax, (cpu.gpr16 rEsi).setWidth 32), (nameEax, (cpu.gpr16 rEdi).setWidth 32),
    (nameEax, (cpu.gpr8 rEax 0).setWidth 32), (nameEax, (cpu.gpr8 rEax 1).setWidth 32),
    (nameEax, (cpu.gpr8 rEcx 0).setWidth 32), (nameEax, (cpu.gpr8 rEcx 1).setWidth 32),
    (nameEax, (cpu.gpr8 rEdx 0).setWidth 32), (nameEax, (cpu.gpr8 rEdx 1).setWidth 32),
    (nameEax, (cpu.gpr8 rEbx 0).setWidth 32), (nameEax, (cpu.gpr8 rEbx 1).setWidth 32)]

def getGpr (cpu : CPUState) (str : List Char) : OnEval Word :=
  match (getGprTable cpu).find? (fun row => str == row.1) with
  | some row => return row.2
  | none => do
      log .noSuchRegister
      clearSuccess
      return 0

/-- The case `p == q` of `eval`. -/
def evalLeaf (cpu : CPUState) (t : Token) : OnEval Word :=
  match t.type with
  | .tkHexadecimal => return htoi t.str
  | .tkDecimal => return decimal t.str
  | .tkGpr => do
      let gprValue ← getGpr cpu t.str
      let s ← get
      if s.success = 1 then return gprValue else return 0
  | _ => do
      log .expressionIsIllegal
      return 0

/-! ## Operators -/

/-- The value of a C comparison or logical operator. -/
def ofBool (b : Bool) : Word := if b then 1 else 0

/-- The `switch` on the type of the dominated operator. -/
def applyOp (type : TokenType) (val1 val2 : Word) : OnEval Word :=
  match type with
  | .plus => return val1 + val2
  | .minus => return val1 - val2
  | .times => return val1 * val2
  | .divide =>
      if val2 = 0 then do
        clearSuccess
        log .divisionByZero
        return 0
      else
        return val1 / val2
  | .tkEq => return ofBool (val1 == val2)
  | .tkAnd => return ofBool (val1 != 0 && val2 != 0)
  | .tkOr => return ofBool (val1 != 0 || val2 != 0)
  | .tkUeq => return ofBool (val1 != val2)
  | _ => do
      log .strangeOperation
      clearSuccess
      return 0

def liftBus {α : Type} (x : OnBus α) : OnEval α := fun s =>
  match x s.bus with
  | .ok a bus => .ok a { s with bus := bus }
  | .error e bus => .error e { s with bus := bus }

theorem final_liftBus {α : Type} (x : OnBus α) (s : EvalState) :
    final (liftBus x s) = { s with bus := final (x s.bus) } := by
  unfold liftBus
  cases x s.bus <;> rfl

/-! ## eval -/

def eval (cpu : CPUState) (tokens : Nat → Token) (p q : Int) : OnEval Word :=
  if h : p > q then do
    log .startBiggerThanEnd
    return 0
  else if p = q then
    evalLeaf cpu (tokens p.toNat)
  else do
    let surrounded ← checkParentheses tokens p q
    if surrounded then
      eval cpu tokens (p + 1) (q - 1)
    else
      let op := findDominatedOp tokens p q
      if (tokens op.toNat).type ≠ .deref then do
        let val1 ← eval cpu tokens p (op - 1)
        let val2 ← eval cpu tokens (op + 1) q
        applyOp (tokens op.toNat).type val1 val2
      else do
        let val1 ← eval cpu tokens (op + 1) q
        liftBus (vaddrRead val1 4)
termination_by (q + 1 - p).toNat
decreasing_by
  · omega
  · have hmem := findDominatedOp_mem tokens (Int.not_lt.1 h)
    omega
  · have hmem := findDominatedOp_mem tokens (Int.not_lt.1 h)
    omega
  · have hmem := findDominatedOp_mem tokens (Int.not_lt.1 h)
    omega

end Nemu
