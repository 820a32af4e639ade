import Nemu.Risc.Rules
import Nemu.Mips32.Exec
import Nemu.Mips32.MipsI

/-!
# The fields of an encoding

The views of `Instr` give back what an encoding was made of, and a word with the opcode of an
instruction is an encoding of it.
-/

namespace Nemu
namespace Risc
namespace Mips32

open MipsI (immediateType)

/-! ## Views of an encoding -/

theorem setWidth_eq_regWord (r : BitVec 5) : r.setWidth 32 = regWord r.toFin := by
  have hlt : r.toNat < 32 := r.isLt
  apply BitVec.eq_of_toNat_eq
  rw [regWord_toNat, BitVec.toNat_setWidth]
  exact Nat.mod_eq_of_lt (by omega)

theorem imm_shift (imm : BitVec 16) : imm.setWidth 32 <<< 16 = imm ++ 0#16 := by
  apply BitVec.eq_of_toNat_eq
  rw [BitVec.toNat_append]
  simp [Nat.shiftLeft_eq]
  omega

section Views

variable (opcode : BitVec 6) (rs rt : BitVec 5) (imm : BitVec 16)

@[simp] theorem opcode_immediateType :
    Instr.opcode (immediateType opcode rs rt imm) = opcode := by
  simp (disch := decide) only [Instr.opcode, immediateType, BitVec.extractLsb'_append_eq_of_le,
    Nat.reduceSub, BitVec.extractLsb'_eq_self]

@[simp] theorem rs_immediateType :
    Instr.rs (immediateType opcode rs rt imm) = regWord rs.toFin := by
  simp (disch := decide) only [Instr.rs, immediateType, BitVec.extractLsb'_append_eq_of_add_le,
    BitVec.extractLsb'_append_eq_of_le, Nat.reduceSub, BitVec.extractLsb'_eq_self,
    setWidth_eq_regWord]

@[simp] theorem rt_immediateType :
    Instr.rt (immediateType opcode rs rt imm) = regWord rt.toFin := by
  simp (disch := decide) only [Instr.rt, immediateType, BitVec.extractLsb'_append_eq_of_add_le,
    BitVec.extractLsb'_append_eq_of_le, Nat.reduceSub, BitVec.extractLsb'_eq_self,
    setWidth_eq_regWord]

theorem extractLsb'_immediateType : (immediateType opcode rs rt imm).extractLsb' 0 16 = imm :=
  BitVec.extractLsb'_append_eq_right

@[simp] theorem imm_immediateType :
    Instr.imm (immediateType opcode rs rt imm) = imm.setWidth 32 := by
  rw [Instr.imm, extractLsb'_immediateType]

@[simp] theorem simm_immediateType :
    Instr.simm (immediateType opcode rs rt imm) = imm.signExtend 32 := by
  rw [Instr.simm, extractLsb'_immediateType]

end Views

/-! ## Words with the opcode of an instruction -/

/-- Every word has the format of an instruction with an immediate. -/
theorem eq_immediateType (w : Word) :
    w = immediateType (Instr.opcode w) (w.extractLsb' 21 5) (w.extractLsb' 16 5)
      (w.extractLsb' 0 16) := by
  rw [immediateType, Instr.opcode, ← extractLsb'_split w 21 6 5, ← extractLsb'_split w 16 11 5,
    ← extractLsb'_split w 0 16 16]
  exact BitVec.extractLsb'_eq_self.symm

/-- The opcodes that the table has an instruction for. -/
def instrOpcodes : List (BitVec 6) := [0x0f, 0x23, 0x2b]

theorem encode_of_opcode {w : Word} (h : Instr.opcode w ∈ instrOpcodes) :
    ∃ i : MipsI.Instr, w = i.encode := by
  have hw := eq_immediateType w
  rcases List.mem_cons.1 h with hop | h
  · rw [hop] at hw
    exact ⟨.lui _ _ _, hw⟩
  rcases List.mem_cons.1 h with hop | h
  · rw [hop] at hw
    exact ⟨.lw _ _ _, hw⟩
  · rw [List.mem_singleton.1 h] at hw
    exact ⟨.sw _ _ _, hw⟩

end Mips32
end Risc
end Nemu
