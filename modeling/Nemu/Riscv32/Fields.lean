import Nemu.Risc.Rules
import Nemu.Riscv32.Exec
import Nemu.Riscv32.Rv32i

/-!
# The fields of an encoding

The views of `Instr` give back what an encoding was made of, and a word with the opcode of an
instruction is an encoding of it.
-/

namespace Nemu
namespace Risc
namespace Riscv32

open Rv32i (regField)

/-! ## Views of an encoding -/

theorem setWidth_regField (r : Fin 32) : (regField r).setWidth 32 = regWord r := by
  apply BitVec.eq_of_toNat_eq
  rw [regWord_toNat]
  simp [regField]
  omega

theorem imm31_12_shift (imm : BitVec 20) : imm.setWidth 32 <<< 12 = imm ++ 0#12 := by
  apply BitVec.eq_of_toNat_eq
  rw [BitVec.toNat_append]
  simp [Nat.shiftLeft_eq]
  omega

/-- The two parts of the offset of a store, of which the upper one carries the sign. -/
theorem simm_halves (offset : BitVec 12) :
    ((offset.extractLsb' 5 7).signExtend 32 <<< 5) ||| (offset.extractLsb' 0 5).setWidth 32 =
      offset.signExtend 32 := by
  apply BitVec.eq_of_getLsbD_eq
  intro i hi
  -- the sign of the offset is that of its upper part
  have hmsb : (offset.extractLsb' 5 7).msb = offset.msb := by
    simp [BitVec.msb_eq_getLsbD_last]
  simp only [BitVec.getLsbD_or, BitVec.getLsbD_shiftLeft, BitVec.getLsbD_signExtend,
    BitVec.getLsbD_extractLsb', BitVec.getLsbD_setWidth, hmsb, hi]
  by_cases h5 : i < 5
  · have h12 : i < 12 := by omega
    simp [h5, h12]
  · have hidx : 5 + (i - 5) = i := by omega
    have h32 : i - 5 < 32 := by omega
    by_cases h12 : i < 12
    · have h7 : i - 5 < 7 := by omega
      simp [h5, h12, h7, hidx, h32]
    · have h7 : ¬ i - 5 < 7 := by omega
      simp [h5, h12, h7, h32]

theorem lui_views (rd : Fin 32) (imm : BitVec 20) :
    let w := (Rv32i.Instr.lui rd imm).encode
    Instr.opcode1_0 w = 3 ∧ Instr.opcode6_2 w = 13 ∧ Instr.rd w = regWord rd ∧
      Instr.imm31_12 w <<< 12 = imm ++ 0#12 := by
  intro w
  have hw : w = imm ++ regField rd ++ 0b0110111#7 := rfl
  rw [hw]
  simp (disch := decide) only [Instr.opcode1_0, Instr.opcode6_2, Instr.rd, Instr.imm31_12,
    BitVec.extractLsb'_append_eq_of_le, BitVec.extractLsb'_append_eq_of_add_le, Nat.reduceSub,
    BitVec.extractLsb'_eq_self, setWidth_regField, imm31_12_shift]
  decide

theorem lw_views (rd rs1 : Fin 32) (offset : BitVec 12) :
    let w := (Rv32i.Instr.lw rd rs1 offset).encode
    Instr.opcode1_0 w = 3 ∧ Instr.opcode6_2 w = 0 ∧ Instr.funct3 w = 2 ∧
      Instr.rd w = regWord rd ∧ Instr.rs1 w = regWord rs1 ∧
      Instr.simm11_0 w = offset.signExtend 32 := by
  intro w
  have hw : w = offset ++ regField rs1 ++ 0b010#3 ++ regField rd ++ 0b0000011#7 := rfl
  rw [hw]
  simp (disch := decide) only [Instr.opcode1_0, Instr.opcode6_2, Instr.funct3, Instr.rd, Instr.rs1,
    Instr.simm11_0, BitVec.extractLsb'_append_eq_of_le, BitVec.extractLsb'_append_eq_of_add_le,
    Nat.reduceSub, BitVec.extractLsb'_eq_self, setWidth_regField]
  decide

theorem sw_views (rs1 rs2 : Fin 32) (offset : BitVec 12) :
    let w := (Rv32i.Instr.sw rs1 rs2 offset).encode
    Instr.opcode1_0 w = 3 ∧ Instr.opcode6_2 w = 8 ∧ Instr.funct3 w = 2 ∧
      Instr.rs1 w = regWord rs1 ∧ Instr.rs2 w = regWord rs2 ∧
      (Instr.simm11_5 w <<< 5) ||| Instr.imm4_0 w = offset.signExtend 32 := by
  intro w
  have hw : w = offset.extractLsb' 5 7 ++ regField rs2 ++ regField rs1 ++ 0b010#3 ++
      offset.extractLsb' 0 5 ++ 0b0100011#7 := rfl
  rw [hw]
  simp (disch := decide) only [Instr.opcode1_0, Instr.opcode6_2, Instr.funct3, Instr.rs1, Instr.rs2,
    Instr.simm11_5, Instr.imm4_0, BitVec.extractLsb'_append_eq_of_le,
    BitVec.extractLsb'_append_eq_of_add_le, Nat.reduceSub, BitVec.extractLsb'_eq_self,
    setWidth_regField, simm_halves]
  decide

/-! ## Words with the opcode of an instruction -/

/-- The number in a field of five bits. -/
def fieldReg (w : Word) (start : Nat) : Fin 32 :=
  ⟨(w.extractLsb' start 5).toNat, (w.extractLsb' start 5).isLt⟩

theorem regField_fieldReg (w : Word) (start : Nat) :
    regField (fieldReg w start) = w.extractLsb' start 5 :=
  BitVec.eq_of_toNat_eq (by simp [regField, fieldReg])

theorem opcode_split (w : Word) :
    w.extractLsb' 0 7 = Instr.opcode6_2 w ++ Instr.opcode1_0 w := extractLsb'_split w 0 5 2

/-- All of a word, from the most significant field on. -/
theorem word_split (w : Word) :
    w = w.extractLsb' 25 7 ++ w.extractLsb' 20 5 ++ w.extractLsb' 15 5 ++ w.extractLsb' 12 3 ++
      w.extractLsb' 7 5 ++ w.extractLsb' 0 7 := by
  rw [← extractLsb'_split w 20 7 5, ← extractLsb'_split w 15 12 5, ← extractLsb'_split w 12 17 3,
    ← extractLsb'_split w 7 20 5, ← extractLsb'_split w 0 25 7]
  exact BitVec.extractLsb'_eq_self.symm

theorem lui_of_opcode {w : Word} (hlow : Instr.opcode1_0 w = 3) (hop : Instr.opcode6_2 w = 13) :
    ∃ rd imm, w = (Rv32i.Instr.lui rd imm).encode := by
  refine ⟨fieldReg w 7, w.extractLsb' 12 20, ?_⟩
  -- the immediate spans the four fields above `rd`
  have himm : w.extractLsb' 12 20 = w.extractLsb' 25 7 ++ w.extractLsb' 20 5 ++
      w.extractLsb' 15 5 ++ w.extractLsb' 12 3 := by
    rw [← extractLsb'_split w 20 7 5, ← extractLsb'_split w 15 12 5, ← extractLsb'_split w 12 17 3]
  rw [Rv32i.Instr.encode, regField_fieldReg, himm]
  refine (word_split w).trans ?_
  rw [opcode_split, hop, hlow]
  rfl

theorem lw_of_opcode {w : Word} (hlow : Instr.opcode1_0 w = 3) (hop : Instr.opcode6_2 w = 0)
    (hfunct : Instr.funct3 w = 2) : ∃ rd rs1 offset, w = (Rv32i.Instr.lw rd rs1 offset).encode := by
  refine ⟨fieldReg w 7, fieldReg w 15, w.extractLsb' 20 12, ?_⟩
  -- the offset spans the two upper fields
  have himm : w.extractLsb' 20 12 = w.extractLsb' 25 7 ++ w.extractLsb' 20 5 :=
    extractLsb'_split w 20 7 5
  have hthree : w.extractLsb' 12 3 = 2 := hfunct
  rw [Rv32i.Instr.encode, regField_fieldReg, regField_fieldReg, himm]
  refine (word_split w).trans ?_
  rw [opcode_split, hop, hlow, hthree]
  rfl

theorem sw_of_opcode {w : Word} (hlow : Instr.opcode1_0 w = 3) (hop : Instr.opcode6_2 w = 8)
    (hfunct : Instr.funct3 w = 2) :
    ∃ rs1 rs2 offset, w = (Rv32i.Instr.sw rs1 rs2 offset).encode := by
  refine ⟨fieldReg w 15, fieldReg w 20, w.extractLsb' 25 7 ++ w.extractLsb' 7 5, ?_⟩
  have hthree : w.extractLsb' 12 3 = 2 := hfunct
  rw [Rv32i.Instr.encode, regField_fieldReg, regField_fieldReg, BitVec.extractLsb'_append_eq_left,
    BitVec.extractLsb'_append_eq_right]
  refine (word_split w).trans ?_
  rw [opcode_split, hop, hlow, hthree]
  rfl

end Riscv32
end Risc
end Nemu
