import Nemu.X86.Decode

/-!
# Instruction execution

The opcode table and `isa_exec` of `src/isa/x86/exec/`, and `exec_once` of `src/cpu/cpu.c`.
-/

namespace Nemu

open StateRules

/-! ## The opcode table -/

inductive Group
  | gp1
  | gp2
  | gp3
  | gp4
  | gp5
  | gp7
  deriving DecidableEq, Repr

/-- The execution helpers that occur in the opcode table. -/
inductive EHelper
  | inv
  | mov
  | nemuTrap
  | operandSize
  | twoByteEsc
  | group (g : Group)
  deriving DecidableEq, Repr

structure OpcodeEntry where
  decode : Option DHelper
  execute : EHelper
  width : Nat
  deriving DecidableEq, Repr

def idexw (id : DHelper) (ex : EHelper) (w : Nat) : OpcodeEntry := ⟨some id, ex, w⟩

def idexEntry (id : DHelper) (ex : EHelper) : OpcodeEntry := idexw id ex 0

def ex (ex : EHelper) : OpcodeEntry := ⟨none, ex, 0⟩

def empty : OpcodeEntry := ex .inv

/-- All eight entries of all groups are `EMPTY`. -/
def groupTable (_ : Group) (_extOpcode : BitVec 3) : OpcodeEntry := empty

/-- `opcode_table`; the codes from 0x100 on are those behind the byte 0x0f. -/
def opcodeTable (opcode : Nat) : OpcodeEntry :=
  match opcode with
  | 0x0f => ex .twoByteEsc
  | 0x66 => ex .operandSize
  | 0x80 => idexw .I2E (.group .gp1) 1
  | 0x81 => idexEntry .I2E (.group .gp1)
  | 0x83 => idexEntry .SI2E (.group .gp1)
  | 0x88 => idexw .movG2E .mov 1
  | 0x89 => idexEntry .movG2E .mov
  | 0x8a => idexw .movE2G .mov 1
  | 0x8b => idexEntry .movE2G .mov
  | 0xa0 => idexw .O2a .mov 1
  | 0xa1 => idexEntry .O2a .mov
  | 0xa2 => idexw .a2O .mov 1
  | 0xa3 => idexEntry .a2O .mov
  | 0xb0 => idexw .movI2r .mov 1
  | 0xb1 => idexw .movI2r .mov 1
  | 0xb2 => idexw .movI2r .mov 1
  | 0xb3 => idexw .movI2r .mov 1
  | 0xb4 => idexw .movI2r .mov 1
  | 0xb5 => idexw .movI2r .mov 1
  | 0xb6 => idexw .movI2r .mov 1
  | 0xb7 => idexw .movI2r .mov 1
  | 0xb8 => idexEntry .movI2r .mov
  | 0xb9 => idexEntry .movI2r .mov
  | 0xba => idexEntry .movI2r .mov
  | 0xbb => idexEntry .movI2r .mov
  | 0xbc => idexEntry .movI2r .mov
  | 0xbd => idexEntry .movI2r .mov
  | 0xbe => idexEntry .movI2r .mov
  | 0xbf => idexEntry .movI2r .mov
  | 0xc0 => idexw .gp2Ib2E (.group .gp2) 1
  | 0xc1 => idexEntry .gp2Ib2E (.group .gp2)
  | 0xc6 => idexw .movI2E .mov 1
  | 0xc7 => idexEntry .movI2E .mov
  | 0xd0 => idexw .gp21E (.group .gp2) 1
  | 0xd1 => idexEntry .gp21E (.group .gp2)
  | 0xd2 => idexw .gp2cl2E (.group .gp2) 1
  | 0xd3 => idexEntry .gp2cl2E (.group .gp2)
  | 0xd6 => ex .nemuTrap
  | 0xf6 => idexw .E (.group .gp3) 1
  | 0xf7 => idexEntry .E (.group .gp3)
  | 0xfe => idexw .E (.group .gp4) 1
  | 0xff => idexEntry .E (.group .gp5)
  | 0x101 => idexEntry .gp7E (.group .gp7)
  | _ => empty

/-! ## Execution helpers -/

/-- `suffix_char` -/
def suffixChar (width : Nat) : Char :=
  match width with
  | 4 => 'l'
  | 1 => 'b'
  | 2 => 'w'
  | _ => '?'

/-- `print_asm_template2` -/
def printAsmTemplate2 (instr : List Char) : Exec Unit := do
  let src ← getOperand .src
  let dest ← getOperand .dest
  printAsm (instr ++ suffixChar dest.width :: ' ' :: src.str ++ ',' :: dest.str)

def execMov : Exec Unit := do
  operandWrite .dest (← getOperand .src).val
  printAsmTemplate2 ['m', 'o', 'v']

/-- The eight bytes of the message are fetched from the instruction's first byte on. -/
def execInv : Exec Unit := do
  let pc := (← get).cpu.pc
  modifyDecinfo fun d => { d with seqPc := pc }
  let _ ← instrFetch 4
  let _ ← instrFetch 4
  rtlExit .nemuAbort pc (-1)
  printAsm ['i', 'n', 'v', 'a', 'l', 'i', 'd', ' ', 'o', 'p', 'c', 'o', 'd', 'e']

def execNemuTrap : Exec Unit := do
  onBus difftestSkipRef
  let cpu := (← get).cpu
  rtlExit .nemuEnd cpu.pc cpu.eax
  printAsm ['n', 'e', 'm', 'u', ' ', 't', 'r', 'a', 'p']

def setOperandSize16 (b : Bool) : Exec Unit :=
  modifyDecinfo fun d => { d with isOperandSize16 := b }

def setWidth (width : Nat) : Exec Unit :=
  modifyDecinfo fun d =>
    let width := if width = 0 then if d.isOperandSize16 then 2 else 4 else width
    { d with operand := fun op => { d.operand op with width } }

/-- The lines that `isa_exec` and `exec_2byte_esc` share. -/
def fetchEntry (escape : Nat) : Exec OpcodeEntry := do
  let opcode := (← instrFetch 1).toNat ||| escape
  modifyDecinfo fun d => { d with opcode }
  setWidth (opcodeTable opcode).width
  return opcodeTable opcode

/-! ## Dispatch -/

/-- The helpers that execute another entry get `idex` as an argument. -/
def execOperandSize (idex : OpcodeEntry → Exec Unit) : Exec Unit := do
  setOperandSize16 true
  idex (← fetchEntry 0)
  setOperandSize16 false

def exec2byteEsc (idex : OpcodeEntry → Exec Unit) : Exec Unit := do
  idex (← fetchEntry 0x100)

/-- `exec_gp1` .. `exec_gp7` -/
def execGroup (idex : OpcodeEntry → Exec Unit) (g : Group) : Exec Unit := do
  idex (groupTable g (← get).decinfo.extOpcode)

def EHelper.run (idex : OpcodeEntry → Exec Unit) : EHelper → Exec Unit
  | .inv => execInv
  | .mov => execMov
  | .nemuTrap => execNemuTrap
  | .operandSize => execOperandSize idex
  | .twoByteEsc => exec2byteEsc idex
  | .group g => execGroup idex g

/-- `if (e->decode) e->decode(pc);` -/
def OpcodeEntry.runDecode (e : OpcodeEntry) : Exec Unit :=
  match e.decode with
  | some decode => decode.run
  | none => pure ()

/-- Each prefix, escape and group is one nested call. -/
def idex : Nat → OpcodeEntry → Exec Unit
  | 0, _ => throw .diverge
  | fuel + 1, e => do
      e.runDecode
      e.execute.run (idex fuel)

/-- After 2^32 prefixes `seq_pc` is back where it was. -/
def idexFuel : Nat := 4294967296

def isaExec : Exec Unit := do idex idexFuel (← fetchEntry 0)

def execOnce : Exec Word := do
  let pc := (← get).cpu.pc
  modifyDecinfo fun d => { d with seqPc := pc }
  isaExec
  updatePc
  checkTrace
  return (← get).decinfo.seqPc

end Nemu
