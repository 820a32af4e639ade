import Nemu.Isa
import Nemu.Risc.Machine

/-!
# riscv32

The instruction format, decode helpers and opcode tables of `src/isa/riscv32/`.
-/

namespace Nemu
namespace Risc
namespace Riscv32

def regsl : List (List Char) :=
  [['$', '0'], ['r', 'a'], ['s', 'p'], ['g', 'p'], ['t', 'p'], ['t', '0'], ['t', '1'], ['t', '2'],
   ['s', '0'], ['s', '1'], ['a', '0'], ['a', '1'], ['a', '2'], ['a', '3'], ['a', '4'], ['a', '5'],
   ['a', '6'], ['a', '7'], ['s', '2'], ['s', '3'], ['s', '4'], ['s', '5'], ['s', '6'], ['s', '7'],
   ['s', '8'], ['s', '9'], ['s', '1', '0'], ['s', '1', '1'], ['t', '3'], ['t', '4'], ['t', '5'],
   ['t', '6']]

/-! ## Instr

The members of the union that the helpers read, each extended to an `int` or `uint32_t`. -/

namespace Instr

def opcode1_0 (instr : Word) : BitVec 2 := instr.extractLsb' 0 2

def opcode6_2 (instr : Word) : BitVec 5 := instr.extractLsb' 2 5

def rd (instr : Word) : Word := (instr.extractLsb' 7 5).setWidth 32

def funct3 (instr : Word) : BitVec 3 := instr.extractLsb' 12 3

def rs1 (instr : Word) : Word := (instr.extractLsb' 15 5).setWidth 32

def rs2 (instr : Word) : Word := (instr.extractLsb' 20 5).setWidth 32

def simm11_0 (instr : Word) : Word := (instr.extractLsb' 20 12).signExtend 32

def imm4_0 (instr : Word) : Word := (instr.extractLsb' 7 5).setWidth 32

def simm11_5 (instr : Word) : Word := (instr.extractLsb' 25 7).signExtend 32

def imm31_12 (instr : Word) : Word := (instr.extractLsb' 12 20).setWidth 32

end Instr

/-! ## decode.c -/

inductive DHelper
  | U
  | ld
  | st
  deriving DecidableEq, Repr

def decodeU : Exec Unit := do
  let instr := (← get).decinfo.instr
  decodeOpI .src (Instr.imm31_12 instr <<< 12)
  decodeOpR regsl .dest (Instr.rd instr) false
  printDop .src ('0' :: 'x' :: hexText (Instr.imm31_12 instr).toNat)

def decodeLd : Exec Unit := do
  let instr := (← get).decinfo.instr
  decodeAddr regsl (Instr.rs1 instr) (Instr.simm11_0 instr)
  decodeOpR regsl .dest (Instr.rd instr) false

def decodeSt : Exec Unit := do
  let instr := (← get).decinfo.instr
  decodeAddr regsl (Instr.rs1 instr) ((Instr.simm11_5 instr <<< 5) ||| Instr.imm4_0 instr)
  decodeOpR regsl .dest (Instr.rs2 instr) true

def DHelper.run : DHelper → Exec Unit
  | .U => decodeU
  | .ld => decodeLd
  | .st => decodeSt

/-! ## exec.c -/

inductive EHelper
  | inv
  | lui
  | load
  | store
  | ld
  | st
  | nemuTrap
  deriving DecidableEq, Repr

abbrev Entry := OpcodeEntry DHelper EHelper

def empty : Entry := ⟨none, .inv, 0⟩

def loadTable (funct3 : BitVec 3) : Entry :=
  match funct3.toNat with
  | 2 => ⟨none, .ld, 4⟩
  | _ => empty

def storeTable (funct3 : BitVec 3) : Entry :=
  match funct3.toNat with
  | 2 => ⟨none, .st, 4⟩
  | _ => empty

def opcodeTable (opcode6_2 : BitVec 5) : Entry :=
  match opcode6_2.toNat with
  | 0 => ⟨some .ld, .load, 0⟩
  | 8 => ⟨some .st, .store, 0⟩
  | 13 => ⟨some .U, .lui, 0⟩
  | 26 => ⟨none, .nemuTrap, 0⟩
  | _ => empty

def execLui : Exec Unit := do
  rtlSr (← getOperand .dest).word (← getOperand .src).val
  printAsmTemplate2 ['l', 'u', 'i']

/-- `exec_load` and `exec_store`: the entry that `funct3` picks from the second table. -/
def execTable (idex : Entry → Exec Unit) (table : BitVec 3 → Entry) : Exec Unit := do
  let entry := table (Instr.funct3 (← get).decinfo.instr)
  modifyDecinfo fun d => { d with width := entry.width }
  idex entry

/-- `$a0` -/
def rA0 : Fin 32 := ⟨10, by decide⟩

def EHelper.run (idex : Entry → Exec Unit) : EHelper → Exec Unit
  | .inv => execInv
  | .lui => execLui
  | .load => execTable idex loadTable
  | .store => execTable idex storeTable
  | .ld => execLd
  | .st => execSt
  | .nemuTrap => execNemuTrap rA0

def runDecode (e : Entry) : Exec Unit :=
  match e.decode with
  | some decode => decode.run
  | none => pure ()

/-- A table of the second level is one nested call. -/
def idex : Nat → Entry → Exec Unit
  | 0, _ => throw .diverge
  | fuel + 1, e => do
      runDecode e
      e.execute.run (idex fuel)

def isaExec : Exec Unit := do
  let instr ← instrFetch 4
  modifyDecinfo fun d => { d with instr }
  -- compressed instructions are not supported
  cAssert (Instr.opcode1_0 instr = 3)
  idex 2 (opcodeTable (Instr.opcode6_2 instr))

def execOnce : Exec Word := Risc.execOnce isaExec

end Riscv32
end Risc
end Nemu
