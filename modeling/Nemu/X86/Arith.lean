import Nemu.X86.Exec

/-!
# Multiplication and division

`exec_mul`, `exec_imul1`, `exec_div` and `exec_idiv` of `src/isa/x86/exec/arith.c`, with the
operations of `include/rtl/c_op.h` and `include/rtl/rtl.h` that they use.  Signed overflow of the
host is taken modulo 2^32.
-/

namespace Nemu

/-! ## Host divisions -/

/-- The operands at which the division instructions of the host fail: a zero divisor, and the
signed quotient that is out of range. -/
def hostTraps {n : Nat} (signed : Bool) (a b : BitVec n) : Bool :=
  b == 0 || (signed && a == BitVec.intMin n && b == -1)

/-- A quotient or a remainder that the host computes. -/
def hostDivide {n : Nat} (signed : Bool) (op : BitVec n → BitVec n → BitVec n) (a b : BitVec n) :
    Exec (BitVec n) :=
  if hostTraps signed a b then throw .divide else return op a b

/-! ## c_op.h -/

def cMulLo (a b : Word) : Word := a * b

def cMulHi (a b : Word) : Word := ((a.setWidth 64 * b.setWidth 64) >>> 32).setWidth 32

def cImulLo (a b : Word) : Word := a * b

def cImulHi (a b : Word) : Word :=
  ((a.signExtend 64 * b.signExtend 64).sshiftRight 32).setWidth 32

def cDivQ (a b : Word) : Exec Word := hostDivide false BitVec.udiv a b

def cDivR (a b : Word) : Exec Word := hostDivide false BitVec.umod a b

/-- C truncates quotients, and the remainder has the sign of the dividend. -/
def cIdivQ (a b : Word) : Exec Word := hostDivide true BitVec.sdiv a b

def cIdivR (a b : Word) : Exec Word := hostDivide true BitVec.srem a b

/-! ## rtl.h -/

/-- `rtl_shli(&s1, &s1, imm)` -/
def rtlShliS1 (imm : Word) : Exec Unit :=
  modify fun s => { s with ir := imm, s1 := s.s1 <<< imm }

/-- `rtl_shri(&s1, &s1, imm)` -/
def rtlShriS1 (imm : Word) : Exec Unit :=
  modify fun s => { s with ir := imm, s1 := s.s1 >>> imm }

/-- `rtl_or(&s0, &s0, &s1)` -/
def rtlOrS0 : Exec Unit :=
  modify fun s => { s with s0 := s.s0 ||| s.s1 }

/-- `((uint64_t)hi << 32) | lo` -/
def dividend64 (hi lo : Word) : BitVec 64 := (hi.setWidth 64 <<< 32) ||| lo.setWidth 64

/-- The four 64-bit divisions: the divisor is widened as its type says, and the low word of the
result is stored. -/
def rtlDivide64 (signed : Bool) (op : BitVec 64 → BitVec 64 → BitVec 64) (hi lo src2 : Word) :
    Exec Word := do
  let divisor := if signed then src2.signExtend 64 else src2.setWidth 64
  return (← hostDivide signed op (dividend64 hi lo) divisor).setWidth 32

def rtlDiv64Q : Word → Word → Word → Exec Word := rtlDivide64 false BitVec.udiv

def rtlDiv64R : Word → Word → Word → Exec Word := rtlDivide64 false BitVec.umod

def rtlIdiv64Q : Word → Word → Word → Exec Word := rtlDivide64 true BitVec.sdiv

def rtlIdiv64R : Word → Word → Word → Exec Word := rtlDivide64 true BitVec.srem

/-! ## arith.c -/

/-- `R_AH` -/
def rAh : Fin 8 := ⟨rEax.val + 4, by decide⟩

/-- `print_asm_template1` -/
def printAsmTemplate1 (instr : List Char) : Exec Unit := do
  let dest ← getOperand .dest
  printAsm (instr ++ suffixChar dest.width :: ' ' :: dest.str)

/-- The `switch` of the multiplications; `s1` holds the low word of the product. -/
def storeProduct (hi : Word → Word → Word) (dest : Operand) : Exec Unit :=
  match dest.width with
  | 1 => do
      rtlSr (BitVec.ofNat 32 rEax.val) (← get).s1 2
  | 2 => do
      rtlSr (BitVec.ofNat 32 rEax.val) (← get).s1 2
      rtlShriS1 16
      rtlSr (BitVec.ofNat 32 rEdx.val) (← get).s1 2
  | 4 => do
      setS0 (hi dest.val (← get).s0)
      rtlSr (BitVec.ofNat 32 rEdx.val) (← get).s0 4
      rtlSr (BitVec.ofNat 32 rEax.val) (← get).s1 4
  | _ => throw .abort

/-- The multiplications by one operand, with the low and the high word of their product. -/
def execMultiply (lo hi : Word → Word → Word) (instr : List Char) : Exec Unit := do
  let dest ← getOperand .dest
  setS0 (← rtlLr (BitVec.ofNat 32 rEax.val) dest.width)
  setS1 (lo dest.val (← get).s0)
  storeProduct hi dest
  printAsmTemplate1 instr

def execMul : Exec Unit := execMultiply cMulLo cMulHi ['m', 'u', 'l']

def execImul1 : Exec Unit := execMultiply cImulLo cImulHi ['i', 'm', 'u', 'l']

/-- The `switch` of the divisions, with the quotients and remainders of 32 and of 64 bits. -/
def storeQuotient (q r : Word → Word → Exec Word) (q64 r64 : Word → Word → Word → Exec Word)
    (dest : Operand) : Exec Unit :=
  match dest.width with
  | 1 => do
      setS0 (← rtlLr (BitVec.ofNat 32 rEax.val) 2)
      setS1 (← q (← get).s0 dest.val)
      rtlSr (BitVec.ofNat 32 rEax.val) (← get).s1 1
      setS1 (← r (← get).s0 dest.val)
      rtlSr (BitVec.ofNat 32 rAh.val) (← get).s1 1
  | 2 => do
      setS0 (← rtlLr (BitVec.ofNat 32 rEax.val) 2)
      setS1 (← rtlLr (BitVec.ofNat 32 rEdx.val) 2)
      rtlShliS1 16
      rtlOrS0
      setS1 (← q (← get).s0 dest.val)
      rtlSr (BitVec.ofNat 32 rEax.val) (← get).s1 2
      setS1 (← r (← get).s0 dest.val)
      rtlSr (BitVec.ofNat 32 rEdx.val) (← get).s1 2
  | 4 => do
      setS0 (← rtlLr (BitVec.ofNat 32 rEax.val) 4)
      setS1 (← rtlLr (BitVec.ofNat 32 rEdx.val) 4)
      -- the results go to `cpu.eax` and `cpu.edx` directly
      let eax ← q64 (← get).s1 (← get).s0 dest.val
      modifyCpu fun cpu => cpu.setGpr32 rEax eax
      let edx ← r64 (← get).s1 (← get).s0 dest.val
      modifyCpu fun cpu => cpu.setGpr32 rEdx edx
  | _ => throw .abort

def execDivide (q r : Word → Word → Exec Word) (q64 r64 : Word → Word → Word → Exec Word)
    (instr : List Char) : Exec Unit := do
  storeQuotient q r q64 r64 (← getOperand .dest)
  printAsmTemplate1 instr

def execDiv : Exec Unit := execDivide cDivQ cDivR rtlDiv64Q rtlDiv64R ['d', 'i', 'v']

def execIdiv : Exec Unit := execDivide cIdivQ cIdivR rtlIdiv64Q rtlIdiv64R ['i', 'd', 'i', 'v']

end Nemu
