import Nemu.Lib.Requests
import Nemu.X86.Arith

/-!
# RTL

The instructions of `include/rtl/rtl.h` over `c_op.h`, `src/cpu/relop.c` and the `rtl_lr` and
`rtl_sr` of x86, as calls that a helper makes one after the other.  The immediates of the pseudo
instructions pass through the register `ir`, which nothing but `rtl.h` names: a helper's pointers
are `Cell`s.
-/

namespace Nemu

open StateRules

/-! ## c_op.h -/

/-- What `make_rtl_arith_logic` is used with. -/
inductive ArithLogic
  | add
  | sub
  | and
  | or
  | xor
  | shl
  | shr
  | sar
  | mulLo
  | mulHi
  | imulLo
  | imulHi
  | divQ
  | divR
  | idivQ
  | idivR
  deriving DecidableEq, Repr

/-- C says nothing about a shift by 32 or more: `host` is what comes out. -/
def ArithLogic.shift (host : ArithLogic → Word → Word → Word) (name : ArithLogic)
    (op : Word → Nat → Word) (a b : Word) : Word :=
  if b.toNat < 32 then op a b.toNat else host name a b

/-- `c_add` and the others -/
def ArithLogic.cOp (host : ArithLogic → Word → Word → Word) (name : ArithLogic) (a b : Word) :
    Exec Word :=
  match name with
  | .add => return a + b
  | .sub => return a - b
  | .and => return a &&& b
  | .or => return a ||| b
  | .xor => return a ^^^ b
  | .shl => return name.shift host (· <<< ·) a b
  | .shr => return name.shift host (· >>> ·) a b
  | .sar => return name.shift host BitVec.sshiftRight a b
  | .mulLo => return cMulLo a b
  | .mulHi => return cMulHi a b
  | .imulLo => return cImulLo a b
  | .imulHi => return cImulHi a b
  | .divQ => cDivQ a b
  | .divR => cDivR a b
  | .idivQ => cIdivQ a b
  | .idivR => cIdivR a b

/-- The four divisions of 64 bits. -/
inductive Div64
  | q
  | r
  | iq
  | ir
  deriving DecidableEq, Repr

def Div64.op : Div64 → Word → Word → Word → Exec Word
  | .q => rtlDiv64Q
  | .r => rtlDiv64R
  | .iq => rtlIdiv64Q
  | .ir => rtlIdiv64R

/-! ## relop.c -/

def relopFalse : Word := 0 ||| 0 ||| 0 ||| 0
def relopTrue : Word := 0 ||| 0 ||| 0 ||| 1
def relopEq : Word := 0 ||| 0 ||| 2 ||| 0
def relopNe : Word := 0 ||| 0 ||| 2 ||| 1
def relopLt : Word := 0 ||| 4 ||| 0 ||| 0
def relopLe : Word := 0 ||| 4 ||| 2 ||| 0
def relopGt : Word := 0 ||| 4 ||| 2 ||| 1
def relopGe : Word := 0 ||| 4 ||| 0 ||| 1
def relopLtu : Word := 8 ||| 0 ||| 0 ||| 0
def relopLeu : Word := 8 ||| 0 ||| 2 ||| 0
def relopGtu : Word := 8 ||| 0 ||| 2 ||| 1
def relopGeu : Word := 8 ||| 0 ||| 0 ||| 1

/-- The cases of the `switch`. -/
def relopCases : List (Word × (Word → Word → Bool)) :=
  [(relopFalse, fun _ _ => false),
    (relopTrue, fun _ _ => true),
    (relopEq, fun a b => a == b),
    (relopNe, fun a b => a != b),
    (relopLt, fun a b => a.slt b),
    (relopLe, fun a b => a.sle b),
    (relopGt, fun a b => b.slt a),
    (relopGe, fun a b => b.sle a),
    (relopLtu, fun a b => a.ult b),
    (relopLeu, fun a b => a.ule b),
    (relopGtu, fun a b => b.ult a),
    (relopGeu, fun a b => b.ule a)]

def interpretRelop (relop src1 src2 : Word) : Exec Bool :=
  match relopCases.lookup relop with
  | some holds => return holds src1 src2
  | none => throw .abort

/-! ## Registers -/

/-- What the `rtlreg_t *` of a helper points to.  `addr` is the word that an operand shares between
`reg`, `addr` and `imm`. -/
inductive Cell
  | s0
  | s1
  | gpr (i : Fin 8)
  | val (op : OperandId)
  | addr (op : OperandId)
  deriving DecidableEq

inductive RtlReg
  | ir
  | cell (c : Cell)

def Machine.rtlGet (s : Machine) : RtlReg → Word
  | .ir => s.ir
  | .cell .s0 => s.s0
  | .cell .s1 => s.s1
  | .cell (.gpr i) => s.cpu.gpr32 i
  | .cell (.val op) => (s.decinfo.operand op).val
  | .cell (.addr op) => (s.decinfo.operand op).word

def DecodeInfo.withOperand (d : DecodeInfo) (op : OperandId) (o : Operand) : DecodeInfo :=
  { d with operand := Function.update d.operand op o }

def Machine.rtlSet (s : Machine) (r : RtlReg) (v : Word) : Machine :=
  match r with
  | .ir => { s with ir := v }
  | .cell .s0 => { s with s0 := v }
  | .cell .s1 => { s with s1 := v }
  | .cell (.gpr i) => { s with cpu := s.cpu.setGpr32 i v }
  | .cell (.val op) =>
      { s with decinfo := s.decinfo.withOperand op { s.decinfo.operand op with val := v } }
  | .cell (.addr op) =>
      { s with decinfo := s.decinfo.withOperand op { s.decinfo.operand op with word := v } }

/-! ## rtl.h -/

def interpretRtlLi (dest : RtlReg) (imm : Word) : Exec Unit := modify fun s => s.rtlSet dest imm

def interpretRtlMv (dest src1 : RtlReg) : Exec Unit :=
  modify fun s => s.rtlSet dest (s.rtlGet src1)

/-- `make_rtl_arith_logic` -/
def interpretRtlArithLogic (host : ArithLogic → Word → Word → Word) (name : ArithLogic)
    (dest src1 src2 : RtlReg) : Exec Unit := do
  let s ← get
  interpretRtlLi dest (← name.cOp host (s.rtlGet src1) (s.rtlGet src2))

/-- `rtl_addi` and the others -/
def rtlArithLogicI (host : ArithLogic → Word → Word → Word) (name : ArithLogic)
    (dest src1 : RtlReg) (imm : Word) : Exec Unit := do
  interpretRtlLi .ir imm
  interpretRtlArithLogic host name dest src1 .ir

def interpretRtlDiv64 (name : Div64) (dest src1Hi src1Lo src2 : RtlReg) : Exec Unit := do
  let s ← get
  interpretRtlLi dest (← name.op (s.rtlGet src1Hi) (s.rtlGet src1Lo) (s.rtlGet src2))

def interpretRtlLm (dest addr : RtlReg) (len : Nat) : Exec Unit := do
  let s ← get
  interpretRtlLi dest (← rtlLm (s.rtlGet addr) len)

def interpretRtlSm (addr src1 : RtlReg) (len : Nat) : Exec Unit := do
  let s ← get
  rtlSm (s.rtlGet addr) (s.rtlGet src1) len

def interpretRtlSetrelop (relop : Word) (dest src1 src2 : RtlReg) : Exec Unit := do
  let s ← get
  let holds ← interpretRelop relop (s.rtlGet src1) (s.rtlGet src2)
  interpretRtlLi dest (if holds then 1 else 0)

def rtlSetrelopi (relop : Word) (dest src1 : RtlReg) (imm : Word) : Exec Unit := do
  interpretRtlLi .ir imm
  interpretRtlSetrelop relop dest src1 .ir

def decinfoSetJmp (isJmp : Bool) : Exec Unit := modifyDecinfo fun d => { d with isJmp }

def interpretRtlJ (target : Word) : Exec Unit := do
  modifyCpu fun cpu => { cpu with pc := target }
  decinfoSetJmp true

def interpretRtlJr (target : RtlReg) : Exec Unit := do
  let s ← get
  interpretRtlJ (s.rtlGet target)

def interpretRtlJrelop (relop : Word) (src1 src2 : RtlReg) (target : Word) : Exec Unit := do
  let s ← get
  let isJmp ← interpretRelop relop (s.rtlGet src1) (s.rtlGet src2)
  if isJmp then modifyCpu fun cpu => { cpu with pc := target } else pure ()
  decinfoSetJmp isJmp

/-! ## The multiplications and divisions

The instructions of RTL that `arith.c` writes out are these. -/

section Arith

variable (host : ArithLogic → Word → Word → Word)

theorem rtlShliS1_eq {imm : Word} (h : imm.toNat < 32) :
    rtlShliS1 imm = rtlArithLogicI host .shl (.cell .s1) (.cell .s1) imm := by
  funext s
  have hshift : ArithLogic.shift host .shl (· <<< ·) s.s1 imm = s.s1 <<< imm := if_pos h
  change EStateM.Result.ok _ _ = .ok PUnit.unit (Machine.rtlSet _ (.cell .s1) (ArithLogic.shift ..))
  exact congrArg (fun v => EStateM.Result.ok PUnit.unit { s with ir := imm, s1 := v }) hshift.symm

theorem rtlShriS1_eq {imm : Word} (h : imm.toNat < 32) :
    rtlShriS1 imm = rtlArithLogicI host .shr (.cell .s1) (.cell .s1) imm := by
  funext s
  have hshift : ArithLogic.shift host .shr (· >>> ·) s.s1 imm = s.s1 >>> imm := if_pos h
  change EStateM.Result.ok _ _ = .ok PUnit.unit (Machine.rtlSet _ (.cell .s1) (ArithLogic.shift ..))
  exact congrArg (fun v => EStateM.Result.ok PUnit.unit { s with ir := imm, s1 := v }) hshift.symm

theorem rtlOrS0_eq :
    rtlOrS0 = interpretRtlArithLogic host .or (.cell .s0) (.cell .s0) (.cell .s1) := rfl

theorem setS0_eq (v : Word) : setS0 v = interpretRtlLi (.cell .s0) v := rfl

theorem setS1_eq (v : Word) : setS1 v = interpretRtlLi (.cell .s1) v := rfl

end Arith

/-! ## Calls -/

/-- What a helper does with the machine: fetching, looking at a register or at `cpu.pc`, and the
instructions of RTL. -/
inductive RtlCall
  | fetch (len : Nat)
  | pc
  | look (c : Cell)
  | li (dest : Cell) (imm : Word)
  | mv (dest src1 : Cell)
  | arithLogic (name : ArithLogic) (dest src1 src2 : Cell)
  | arithLogicI (name : ArithLogic) (dest src1 : Cell) (imm : Word)
  | div64 (name : Div64) (dest src1Hi src1Lo src2 : Cell)
  | lm (dest addr : Cell) (len : Nat)
  | sm (addr src1 : Cell) (len : Nat)
  | lr (dest : Cell) (r : Word) (width : Nat)
  | sr (r : Word) (src1 : Cell) (width : Nat)
  | setrelop (relop : Word) (dest src1 src2 : Cell)
  | setrelopi (relop : Word) (dest src1 : Cell) (imm : Word)
  | j (target : Word)
  | jr (target : Cell)
  | jrelop (relop : Word) (src1 src2 : Cell) (target : Word)
  | exit (state : RunState) (haltPc haltRet : Word)

/-- A call without a result. -/
def answered {σ : Type} (x : EStateM Fault σ Unit) : EStateM Fault σ Word := do
  x
  return 0

def RtlCall.exec (host : ArithLogic → Word → Word → Word) : RtlCall → Exec Word
  | .fetch len => instrFetch len
  | .pc => return (← get).cpu.pc
  | .look c => return (← get).rtlGet (.cell c)
  | .li dest imm => answered (interpretRtlLi (.cell dest) imm)
  | .mv dest src1 => answered (interpretRtlMv (.cell dest) (.cell src1))
  | .arithLogic name dest src1 src2 =>
      answered (interpretRtlArithLogic host name (.cell dest) (.cell src1) (.cell src2))
  | .arithLogicI name dest src1 imm =>
      answered (rtlArithLogicI host name (.cell dest) (.cell src1) imm)
  | .div64 name dest src1Hi src1Lo src2 =>
      answered (interpretRtlDiv64 name (.cell dest) (.cell src1Hi) (.cell src1Lo) (.cell src2))
  | .lm dest addr len => answered (interpretRtlLm (.cell dest) (.cell addr) len)
  | .sm addr src1 len => answered (interpretRtlSm (.cell addr) (.cell src1) len)
  | .lr dest r width => answered do interpretRtlLi (.cell dest) (← rtlLr r width)
  | .sr r src1 width => answered do rtlSr r ((← get).rtlGet (.cell src1)) width
  | .setrelop relop dest src1 src2 =>
      answered (interpretRtlSetrelop relop (.cell dest) (.cell src1) (.cell src2))
  | .setrelopi relop dest src1 imm =>
      answered (rtlSetrelopi relop (.cell dest) (.cell src1) imm)
  | .j target => answered (interpretRtlJ target)
  | .jr target => answered (interpretRtlJr (.cell target))
  | .jrelop relop src1 src2 target =>
      answered (interpretRtlJrelop relop (.cell src1) (.cell src2) target)
  | .exit state haltPc haltRet => answered (rtlExit state haltPc haltRet)

/-- An `isa_exec` and its helpers, as the calls that they make. -/
abbrev RtlProgram := Requests.Client RtlCall Word Fault

/-- `exec_once` -/
def rtlExecOnce (host : ArithLogic → Word → Word → Word) (isaExec : RtlProgram Unit) : Exec Word := do
  let pc := (← get).cpu.pc
  modifyDecinfo fun d => { d with seqPc := pc }
  isaExec.run (RtlCall.exec host)
  updatePc
  return (← get).decinfo.seqPc

def Machine.isRunning (s : Machine) : Bool := s.nemuState.state = .nemuRunning

end Nemu
