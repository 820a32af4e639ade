import Nemu.Common
import Nemu.Lib.LittleEndian

/-!
# MIPS I

Three instructions of the MIPS I architecture as the manual has them: their encodings, and what they
do to a processor.  Nothing here is taken from the emulator.
-/

namespace Nemu
namespace MipsI

open LittleEndian

/-! ## Encodings -/

/-- `lui` does not look at its field `rs`. -/
inductive Instr
  | lui (rs rt : BitVec 5) (imm : BitVec 16)
  | lw (base rt : BitVec 5) (offset : BitVec 16)
  | sw (base rt : BitVec 5) (offset : BitVec 16)
  deriving DecidableEq, Repr

/-- The format of all three, from the most significant field down. -/
def immediateType (opcode : BitVec 6) (rs rt : BitVec 5) (imm : BitVec 16) : Word :=
  opcode ++ rs ++ rt ++ imm

def Instr.encode : Instr → Word
  | lui rs rt imm => immediateType 0b001111 rs rt imm
  | lw base rt offset => immediateType 0b100011 base rt offset
  | sw base rt offset => immediateType 0b101011 base rt offset

/-! ## Execution -/

structure Core where
  gpr : BitVec 5 → Word
  pc : Word
  mem : Word → Byte

namespace Core

variable (c : Core)

/-- Register 0 ignores what is written to it. -/
def writeReg (rt : BitVec 5) (v : Word) : BitVec 5 → Word :=
  if rt = 0 then c.gpr else Function.update c.gpr rt v

/-- The little-endian word at an address. -/
def readWord (a : Word) : Word := load (fun k => c.mem (a + BitVec.ofNat 32 k)) 0 4

def writeWord (a v : Word) : Word → Byte := fun b =>
  if (b - a).toNat < 4 then byteOf v (b - a).toNat else c.mem b

end Core

/-- The memory word that an instruction reads or writes. -/
def Instr.address (i : Instr) (c : Core) : Option Word :=
  match i with
  | lui _ _ _ => none
  | lw base _ offset => some (c.gpr base + offset.signExtend 32)
  | sw base _ offset => some (c.gpr base + offset.signExtend 32)

def Instr.exec (i : Instr) (c : Core) : Core :=
  match i with
  | lui _ rt imm => { c with gpr := c.writeReg rt (imm ++ 0#16), pc := c.pc + 4 }
  | lw base rt offset =>
      { c with gpr := c.writeReg rt (c.readWord (c.gpr base + offset.signExtend 32)), pc := c.pc + 4 }
  | sw base rt offset =>
      { c with mem := c.writeWord (c.gpr base + offset.signExtend 32) (c.gpr rt), pc := c.pc + 4 }

end MipsI
end Nemu
