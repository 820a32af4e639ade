import Nemu.Cpu.Machine

/-!
# The machine of riscv32 and mips32

`src/isa/riscv32` and `src/isa/mips32` share everything but their instruction formats and tables:
the register file of `include/isa/reg.h`, the accessors of `include/isa/rtl.h`, the operand helpers
of `decode.c`, and the helpers of `exec/ldst.c` and `exec/special.c` are the same text.
-/

namespace Nemu
namespace Risc

open StateRules

/-! ## State -/

structure CPUState where
  gpr : Fin 32 → Word
  pc : Word

/-- The union of the views of an instruction is kept as its `val`. -/
structure DecodeInfo where
  width : Nat
  seqPc : Word
  isJmp : Bool
  operand : OperandId → Operand
  instr : Word

structure Machine where
  cpu : CPUState
  bus : Bus
  s0 : Word
  ir : Word
  decinfo : DecodeInfo
  nemuState : NEMUState
  trace : Trace

abbrev Exec := EStateM Fault Machine

def onBus {α : Type} (x : OnBus α) : Exec α := fun s =>
  match x s.bus with
  | .ok a bus => .ok a { s with bus }
  | .error e bus => .error e { s with bus }

theorem final_onBus {α : Type} (x : OnBus α) (s : Machine) :
    final (onBus x s) = { s with bus := final (x s.bus) } := by
  unfold onBus
  cases x s.bus <;> rfl

def modifyDecinfo (f : DecodeInfo → DecodeInfo) : Exec Unit :=
  modify fun s => { s with decinfo := f s.decinfo }

def getOperand (op : OperandId) : Exec Operand := do
  return (← get).decinfo.operand op

def modifyOperand (op : OperandId) (f : Operand → Operand) : Exec Unit :=
  modifyDecinfo fun d => { d with operand := Function.update d.operand op (f (d.operand op)) }

/-! ## Tracing -/

def strcatfBytebuf (text : List Char) : Exec Unit :=
  modify fun s =>
    { s with
      trace := s.trace.ofBuffers (s.trace.bytebuf ++ text.take (tempbufSize - 1)) s.trace.asmbuf }

def printAsm (text : List Char) : Exec Unit :=
  modify fun s =>
    { s with
      trace := s.trace.ofBuffers s.trace.bytebuf (s.trace.asmbuf ++ text.take (tempbufSize - 1)) }

/-- The width suffix is a blank. -/
def printAsmTemplate2 (instr : List Char) : Exec Unit := do
  let src ← getOperand .src
  let dest ← getOperand .dest
  printAsm (instr ++ ' ' :: ' ' :: src.str ++ ',' :: dest.str)

def printAsmTemplate3 (instr : List Char) : Exec Unit := do
  let src ← getOperand .src
  let src2 ← getOperand .src2
  let dest ← getOperand .dest
  printAsm (instr ++ ' ' :: ' ' :: src.str ++ ',' :: src2.str ++ ',' :: dest.str)

/-! ## Fetching -/

def instrFetch (len : Nat) : Exec Word := do
  let pc := (← get).decinfo.seqPc
  let instr ← onBus (vaddrRead pc len)
  modify fun s => { s with trace := { s.trace with fetched := s.trace.fetched + len } }
  -- one `strcatf` for each byte
  (List.range len).forM fun i => strcatfBytebuf (byteText (LittleEndian.byteOf instr i))
  modifyDecinfo fun d => { d with seqPc := d.seqPc + BitVec.ofNat 32 len }
  return instr

/-! ## rtl.h -/

def checkRegIndex (index : Word) : Exec (Fin 32) := fun s =>
  if h : index.toNat < 32 then .ok ⟨index.toNat, h⟩ s else .error .abort s

/-- Register 0 reads as 0, whatever the array holds. -/
def rtlLr (r : Word) : Exec Word := do
  if r ≠ 0 then
    let i ← checkRegIndex r
    return (← get).cpu.gpr i
  else return 0

def modifyCpu (f : CPUState → CPUState) : Exec Unit :=
  modify fun s => { s with cpu := f s.cpu }

def rtlSr (r src : Word) : Exec Unit := do
  if r ≠ 0 then
    let i ← checkRegIndex r
    modifyCpu fun cpu => { cpu with gpr := Function.update cpu.gpr i src }

def rtlLm (addr : Word) (len : Nat) : Exec Word := onBus (vaddrRead addr len)

def rtlSm (addr src : Word) (len : Nat) : Exec Unit := onBus (vaddrWrite addr src len)

def rtlExit (state : RunState) (haltPc haltRet : Word) : Exec Unit :=
  modify fun s => { s with nemuState := ⟨state, haltPc, haltRet⟩ }

/-! ## decode.c -/

def printDop (op : OperandId) (text : List Char) : Exec Unit :=
  modifyOperand op fun o => { o with str := text.take (opStrSize - 1) }

/-- `"%d"` -/
def decimalText (v : Word) : List Char := (toString v.toInt).toList

section Decode

-- the names of the registers, by which alone the two instruction sets differ here
variable (regsl : List (List Char))

/-- `reg_name` -/
def regNameOf (index : Word) : Exec (List Char) :=
  match regsl[index.toNat]? with
  | some name => return name
  | none => throw .abort

def decodeOpI (op : OperandId) (val : Word) : Exec Unit := do
  modifyOperand op fun o => { o with type := .imm, word := val, val }
  printDop op (decimalText val)

/-- `if (load_val) { rtl_lr(&op->val, op->reg, 4); }` -/
def loadOperand (op : OperandId) (reg : Word) (loadVal : Bool) : Exec Unit :=
  if loadVal then do
    let v ← rtlLr reg
    modifyOperand op fun o => { o with val := v }
  else pure ()

def decodeOpR (op : OperandId) (val : Word) (loadVal : Bool) : Exec Unit := do
  modifyOperand op fun o => { o with type := .reg, word := val }
  loadOperand op val loadVal
  printDop op (← regNameOf regsl val)

/-- `decode_addr` of mips32, which stands twice in riscv32; the address takes the place of the
register's number. -/
def decodeAddr (rs simm : Word) : Exec Unit := do
  decodeOpR regsl .src rs true
  decodeOpI .src2 simm
  let src ← getOperand .src
  let src2 ← getOperand .src2
  printDop .src (decimalText src2.val ++ '(' :: (← regNameOf regsl src.word) ++ [')'])
  modifyOperand .src fun o => { o with word := o.val + src2.val }

end Decode

/-! ## ldst.c and special.c -/

def execLd : Exec Unit := do
  let width := (← get).decinfo.width
  let v ← rtlLm (← getOperand .src).word width
  modify fun s => { s with s0 := v }
  rtlSr (← getOperand .dest).word v
  match width with
  | 4 => printAsmTemplate2 ['l', 'w']
  | 2 => printAsmTemplate2 ['l', 'h', 'u']
  | 1 => printAsmTemplate2 ['l', 'b', 'u']
  | _ => throw .abort

def execSt : Exec Unit := do
  let width := (← get).decinfo.width
  rtlSm (← getOperand .src).word (← getOperand .dest).val width
  match width with
  | 4 => printAsmTemplate2 ['s', 'w']
  | 2 => printAsmTemplate2 ['s', 'h']
  | 1 => printAsmTemplate2 ['s', 'b']
  | _ => throw .abort

/-- Two words are fetched from the instruction on. -/
def execInv : Exec Unit := do
  let pc := (← get).cpu.pc
  modifyDecinfo fun d => { d with seqPc := pc }
  let _ ← instrFetch 4
  let _ ← instrFetch 4
  rtlExit .nemuAbort pc (-1)
  printAsm ['i', 'n', 'v', 'a', 'l', 'i', 'd', ' ', 'o', 'p', 'c', 'o', 'd', 'e']

/-- The result of the program is in the register `ret`. -/
def execNemuTrap (ret : Fin 32) : Exec Unit := do
  onBus difftestSkipRef
  let cpu := (← get).cpu
  rtlExit .nemuEnd cpu.pc (cpu.gpr ret)
  printAsm ['n', 'e', 'm', 'u', ' ', 't', 'r', 'a', 'p']

/-! ## Dispatch -/

/-- An entry of an opcode table, for the decode helpers `D` and the execution helpers `X`. -/
structure OpcodeEntry (D X : Type) where
  decode : Option D
  execute : X
  width : Nat

def updatePc : Exec Unit :=
  modify fun s =>
    if s.decinfo.isJmp then { s with decinfo := { s.decinfo with isJmp := false } }
    else { s with cpu := { s.cpu with pc := s.decinfo.seqPc } }

/-- `exec_once`, given the `isa_exec` of the instruction set. -/
def execOnce (isaExec : Exec Unit) : Exec Word := do
  let pc := (← get).cpu.pc
  modifyDecinfo fun d => { d with seqPc := pc }
  isaExec
  updatePc
  return (← get).decinfo.seqPc

end Risc
end Nemu
