import Nemu.Memory.Paddr
import Nemu.X86.Reg

/-!
# The machine under the instruction helpers

The globals of `src/cpu/cpu.c`, `src/monitor/cpu-exec.c` and `src/monitor/debug/log.c` that an
instruction reads and writes, and the helpers of `include/cpu/exec.h` on them.  The pointer
`vaddr_t *pc` that all helpers hand on points to `decinfo.seq_pc`.
-/

namespace Nemu

open StateRules

/-! ## Decoding state -/

inductive OpType
  | reg
  | mem
  | imm
  deriving DecidableEq, Repr

/-- `word` is the union of `reg`, `addr`, `imm` and `simm`. -/
structure Operand where
  type : OpType
  width : Nat
  word : Word
  val : Word
  str : List Char

def opStrSize : Nat := 40

/-- `id_src`, `id_src2` and `id_dest`. -/
inductive OperandId
  | src
  | src2
  | dest
  deriving DecidableEq, Repr

structure DecodeInfo where
  opcode : Nat
  seqPc : Word
  isJmp : Bool
  operand : OperandId → Operand
  isOperandSize16 : Bool
  extOpcode : BitVec 3

def DecodeInfo.zero : DecodeInfo :=
  { opcode := 0, seqPc := 0, isJmp := false, operand := fun _ => ⟨.reg, 0, 0, 0, []⟩,
    isOperandSize16 := false, extOpcode := 0 }

/-! ## Run state and trace -/

inductive RunState
  | nemuStop
  | nemuRunning
  | nemuEnd
  | nemuAbort
  deriving DecidableEq, Repr

structure NEMUState where
  state : RunState
  haltPc : Word
  haltRet : Word

/-- The sizes of `log_bytebuf` and `log_asmbuf`. -/
def logBufSize : Nat := 80

/-- The strings in `log_bytebuf` and `log_asmbuf`.  `fits` records whether at every moment so far both
have been shorter than their arrays, and `fetched` counts the bytes fetched; the source has neither
record.  A string that does not fit is kept whole: `checkTrace` is where the instruction that wrote
it fails. -/
structure Trace where
  bytebuf : List Char
  asmbuf : List Char
  fits : Bool
  fetched : Nat

def Trace.zero : Trace :=
  { bytebuf := [], asmbuf := [], fits := true, fetched := 0 }

structure Machine where
  cpu : CPUState
  bus : Bus
  s0 : Word
  s1 : Word
  ir : Word
  decinfo : DecodeInfo
  nemuState : NEMUState
  trace : Trace

/-- The statics at the start of the program. -/
def Machine.zero : Machine :=
  { cpu := .zero, bus := .zero, s0 := 0, s1 := 0, ir := 0, decinfo := .zero,
    nemuState := ⟨.nemuStop, 0, 0⟩, trace := .zero }

abbrev Exec := EStateM Fault Machine

def onBus {α : Type} (x : OnBus α) : Exec α := fun s =>
  match x s.bus with
  | .ok a bus => .ok a { s with bus }
  | .error e bus => .error e { s with bus }

theorem final_onBus {α : Type} (x : OnBus α) (s : Machine) :
    final (onBus x s) = { s with bus := final (x s.bus) } := by
  unfold onBus
  cases x s.bus <;> rfl

def modifyDecinfo (f : DecodeInfo → DecodeInfo) : Exec Unit :=
  modify fun s => { s with decinfo := f s.decinfo }

def getOperand (op : OperandId) : Exec Operand := do
  return (← get).decinfo.operand op

def modifyOperand (op : OperandId) (f : Operand → Operand) : Exec Unit :=
  modifyDecinfo fun d => { d with operand := Function.update d.operand op (f (d.operand op)) }

/-! ## Tracing -/

def hexDigitText (n : Nat) : List Char := [Nat.digitChar (n % 16)]

/-- `"%x"` -/
def hexText (n : Nat) : List Char := Nat.toDigits 16 n

/-- `"%02x "` -/
def byteText (b : Byte) : List Char :=
  hexDigitText (b.toNat / 16) ++ hexDigitText b.toNat ++ [' ']

/-- The size of `tempbuf`, through which `strcatf` formats. -/
def tempbufSize : Nat := 256

def Trace.ofBuffers (t : Trace) (bytebuf asmbuf : List Char) : Trace :=
  { t with bytebuf, asmbuf, fits := t.fits && decide (bytebuf.length < logBufSize) &&
      decide (asmbuf.length < logBufSize) }

def strcatfBytebuf (text : List Char) : Exec Unit :=
  modify fun s =>
    { s with
      trace := s.trace.ofBuffers (s.trace.bytebuf ++ text.take (tempbufSize - 1)) s.trace.asmbuf }

/-- `print_asm` -/
def printAsm (text : List Char) : Exec Unit :=
  modify fun s =>
    { s with
      trace := s.trace.ofBuffers s.trace.bytebuf (s.trace.asmbuf ++ text.take (tempbufSize - 1)) }

/-- `strcat` has written behind an array.  The fault is raised when the instruction is over; nothing
looks at the arrays before that. -/
def checkTrace : Exec Unit := fun s =>
  if s.trace.fits then .ok ⟨⟩ s else .error .bounds s

/-- `asm_print`, of which the log file sees the text. -/
def asmPrint : Exec Unit :=
  modify fun s => { s with trace := s.trace.ofBuffers [] [] }

/-! ## Fetching -/

def instrFetch (len : Nat) : Exec Word := do
  let pc := (← get).decinfo.seqPc
  let instr ← onBus (vaddrRead pc len)
  modify fun s => { s with trace := { s.trace with fetched := s.trace.fetched + len } }
  -- one `strcatf` for each byte
  (List.range len).forM fun i => strcatfBytebuf (byteText (LittleEndian.byteOf instr i))
  modifyDecinfo fun d => { d with seqPc := d.seqPc + BitVec.ofNat 32 len }
  return instr

/-! ## Registers -/

/-- `check_reg_index` -/
def checkRegIndex (index : Word) : Exec (Fin 8) := fun s =>
  if h : index.toNat < 8 then .ok ⟨index.toNat, h⟩ s else .error .abort s

def rtlLr (r : Word) (width : Nat) : Exec Word := do
  let cpu := (← get).cpu
  match width with
  | 4 => return cpu.gpr32 (← checkRegIndex r)
  | 1 => do
      let i ← checkRegIndex r
      return (cpu.gpr8 ⟨i.val % 4, mod_four_lt_eight i⟩ (i.val / 4)).setWidth 32
  | 2 => return (cpu.gpr16 (← checkRegIndex r)).setWidth 32
  | _ => throw .abort

def modifyCpu (f : CPUState → CPUState) : Exec Unit :=
  modify fun s => { s with cpu := f s.cpu }

def rtlSr (r : Word) (src : Word) (width : Nat) : Exec Unit := do
  match width with
  | 4 => do
      let i ← checkRegIndex r
      modifyCpu fun cpu => cpu.setGpr32 i src
  | 1 => do
      let i ← checkRegIndex r
      modifyCpu fun cpu => cpu.setGpr8 ⟨i.val % 4, mod_four_lt_eight i⟩ (i.val / 4) src
  | 2 => do
      let i ← checkRegIndex r
      modifyCpu fun cpu => cpu.setGpr16 i src
  | _ => throw .abort

def rtlLm (addr : Word) (len : Nat) : Exec Word := onBus (vaddrRead addr len)

def rtlSm (addr : Word) (src : Word) (len : Nat) : Exec Unit := onBus (vaddrWrite addr src len)

/-- `interpret_rtl_exit` -/
def rtlExit (state : RunState) (haltPc haltRet : Word) : Exec Unit :=
  modify fun s => { s with nemuState := ⟨state, haltPc, haltRet⟩ }

/-- `operand_write` -/
def operandWrite (op : OperandId) (src : Word) : Exec Unit := do
  let o ← getOperand op
  match o.type with
  | .reg => rtlSr o.word src o.width
  | .mem => rtlSm o.word src o.width
  | .imm => throw .abort

def updatePc : Exec Unit :=
  modify fun s =>
    if s.decinfo.isJmp then { s with decinfo := { s.decinfo with isJmp := false } }
    else { s with cpu := { s.cpu with pc := s.decinfo.seqPc } }

end Nemu
