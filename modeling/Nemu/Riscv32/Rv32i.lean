import Nemu.Common
import Nemu.Lib.LittleEndian

/-!
# RV32I

Three instructions of the base integer set as the manual has them: their encodings, and what they do
to a hart.  Nothing here is taken from the emulator.
-/

namespace Nemu
namespace Rv32i

open LittleEndian

/-! ## Encodings -/

inductive Instr
  | lui (rd : Fin 32) (imm : BitVec 20)
  | lw (rd rs1 : Fin 32) (offset : BitVec 12)
  | sw (rs1 rs2 : Fin 32) (offset : BitVec 12)
  deriving DecidableEq, Repr

def regField (r : Fin 32) : BitVec 5 := BitVec.ofNat 5 r.val

/-- From the most significant field to the opcode. -/
def Instr.encode : Instr → Word
  | lui rd imm => imm ++ regField rd ++ 0b0110111#7
  | lw rd rs1 offset => offset ++ regField rs1 ++ 0b010#3 ++ regField rd ++ 0b0000011#7
  | sw rs1 rs2 offset =>
      offset.extractLsb' 5 7 ++ regField rs2 ++ regField rs1 ++ 0b010#3 ++
        offset.extractLsb' 0 5 ++ 0b0100011#7

/-! ## Execution -/

structure Hart where
  x : Fin 32 → Word
  pc : Word
  mem : Word → Byte

namespace Hart

variable (h : Hart)

/-- `x0` ignores what is written to it. -/
def writeReg (rd : Fin 32) (v : Word) : Fin 32 → Word :=
  if rd.val = 0 then h.x else Function.update h.x rd v

/-- The little-endian word at an address. -/
def readWord (a : Word) : Word := load (fun k => h.mem (a + BitVec.ofNat 32 k)) 0 4

def writeWord (a v : Word) : Word → Byte := fun b =>
  if (b - a).toNat < 4 then byteOf v (b - a).toNat else h.mem b

end Hart

/-- The memory word that an instruction reads or writes. -/
def Instr.address (i : Instr) (h : Hart) : Option Word :=
  match i with
  | lui _ _ => none
  | lw _ rs1 offset => some (h.x rs1 + offset.signExtend 32)
  | sw rs1 _ offset => some (h.x rs1 + offset.signExtend 32)

def Instr.exec (i : Instr) (h : Hart) : Hart :=
  match i with
  | lui rd imm => { h with x := h.writeReg rd (imm ++ 0#12), pc := h.pc + 4 }
  | lw rd rs1 offset =>
      { h with x := h.writeReg rd (h.readWord (h.x rs1 + offset.signExtend 32)), pc := h.pc + 4 }
  | sw rs1 rs2 offset =>
      { h with mem := h.writeWord (h.x rs1 + offset.signExtend 32) (h.x rs2), pc := h.pc + 4 }

end Rv32i
end Nemu
