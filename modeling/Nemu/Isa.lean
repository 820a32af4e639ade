import Nemu.Common

/-!
# Instruction sets

The constants by which the three builds differ.
-/

namespace Nemu

inductive Isa
  | x86
  | riscv32
  | mips32
  deriving DecidableEq, Repr

def imageStart : Word := 0x100000

/-- The argument of `register_pmem` in `init_isa`. -/
def Isa.pmemBase : Isa → Word
  | .x86 => 0
  | .riscv32 => 0x80000000
  | .mips32 => 0x80000000

def Isa.pcStart : Isa → Word
  | .x86 => imageStart
  | .riscv32 => 0x80000000 + imageStart
  | .mips32 => 0x80000000 + imageStart

/-- `DIFFTEST_REG_SIZE` -/
def Isa.difftestRegSize : Isa → Nat
  | .x86 => 4 * 9
  | .riscv32 => 4 * 33
  | .mips32 => 4 * 38

end Nemu
