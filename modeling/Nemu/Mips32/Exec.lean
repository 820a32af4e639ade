import Nemu.Isa
import Nemu.Risc.Machine

/-!
# mips32

The instruction format, decode helpers and opcode tables of `src/isa/mips32/`.
-/

namespace Nemu
namespace Risc
namespace Mips32

def regsl : List (List Char) :=
  [['$', '0'], ['a', 't'], ['v', '0'], ['v', '1'], ['a', '0'], ['a', '1'], ['a', '2'], ['a', '3'],
   ['t', '0'], ['t', '1'], ['t', '2'], ['t', '3'], ['t', '4'], ['t', '5'], ['t', '6'], ['t', '7'],
   ['s', '0'], ['s', '1'], ['s', '2'], ['s', '3'], ['s', '4'], ['s', '5'], ['s', '6'], ['s', '7'],
   ['t', '8'], ['t', '9'], ['k', '0'], ['k', '1'], ['g', 'p'], ['s', 'p'], ['s', '8'], ['r', 'a']]

/-! ## Instr

The members of the union that the helpers read, the operands extended to an `int` or `uint32_t`.
`simm`, `imm` and `func` overlap. -/

namespace Instr

def simm (instr : Word) : Word := (instr.extractLsb' 0 16).signExtend 32

def imm (instr : Word) : Word := (instr.extractLsb' 0 16).setWidth 32

def func (instr : Word) : BitVec 6 := instr.extractLsb' 0 6

def rt (instr : Word) : Word := (instr.extractLsb' 16 5).setWidth 32

def rs (instr : Word) : Word := (instr.extractLsb' 21 5).setWidth 32

def opcode (instr : Word) : BitVec 6 := instr.extractLsb' 26 6

end Instr

/-! ## decode.c -/

inductive DHelper
  | IU
  | ld
  | st
  deriving DecidableEq, Repr

def decodeIU : Exec Unit := do
  let instr := (← get).decinfo.instr
  decodeOpR regsl .src (Instr.rs instr) true
  decodeOpI .src2 (Instr.imm instr)
  decodeOpR regsl .dest (Instr.rt instr) false
  printDop .src2 ('0' :: 'x' :: hexText (Instr.imm instr).toNat)

def decodeLd : Exec Unit := do
  let instr := (← get).decinfo.instr
  decodeAddr regsl (Instr.rs instr) (Instr.simm instr)
  decodeOpR regsl .dest (Instr.rt instr) false

def decodeSt : Exec Unit := do
  let instr := (← get).decinfo.instr
  decodeAddr regsl (Instr.rs instr) (Instr.simm instr)
  decodeOpR regsl .dest (Instr.rt instr) true

def DHelper.run : DHelper → Exec Unit
  | .IU => decodeIU
  | .ld => decodeLd
  | .st => decodeSt

/-! ## exec.c -/

inductive EHelper
  | inv
  | special
  | lui
  | ld
  | st
  | nemuTrap
  deriving DecidableEq, Repr

abbrev Entry := OpcodeEntry DHelper EHelper

def empty : Entry := ⟨none, .inv, 0⟩

/-- All 64 entries are `EMPTY`. -/
def specialTable (_func : BitVec 6) : Entry := empty

def opcodeTable (opcode : BitVec 6) : Entry :=
  match opcode.toNat with
  | 0 => ⟨none, .special, 0⟩
  | 15 => ⟨some .IU, .lui, 0⟩
  | 35 => ⟨some .ld, .ld, 4⟩
  | 43 => ⟨some .st, .st, 4⟩
  | 60 => ⟨none, .nemuTrap, 0⟩
  | _ => empty

def execLui : Exec Unit := do
  let v := (← getOperand .src2).val <<< 16
  modify fun s => { s with s0 := v }
  rtlSr (← getOperand .dest).word v
  printAsmTemplate3 ['l', 'u', 'i']

/-- The width of `decinfo` stays that of the first entry. -/
def execSpecial (idex : Entry → Exec Unit) : Exec Unit := do
  idex (specialTable (Instr.func (← get).decinfo.instr))

/-- `$v0` -/
def rV0 : Fin 32 := ⟨2, by decide⟩

def EHelper.run (idex : Entry → Exec Unit) : EHelper → Exec Unit
  | .inv => execInv
  | .special => execSpecial idex
  | .lui => execLui
  | .ld => execLd
  | .st => execSt
  | .nemuTrap => execNemuTrap rV0

def runDecode (e : Entry) : Exec Unit :=
  match e.decode with
  | some decode => decode.run
  | none => pure ()

/-- The table of the second level is one nested call. -/
def idex : Nat → Entry → Exec Unit
  | 0, _ => throw .diverge
  | fuel + 1, e => do
      runDecode e
      e.execute.run (idex fuel)

def isaExec : Exec Unit := do
  let instr ← instrFetch 4
  modifyDecinfo fun d => { d with instr }
  let entry := opcodeTable (Instr.opcode instr)
  modifyDecinfo fun d => { d with width := entry.width }
  idex 2 entry

def execOnce : Exec Word := Risc.execOnce isaExec

end Mips32
end Risc
end Nemu
