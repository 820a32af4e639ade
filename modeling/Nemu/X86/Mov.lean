import Nemu.Cpu.Machine

/-!
# The mov family of the i386

What the processor manual says about `mov`: where an operand lives, how a ModR/M byte with what
follows it names one, and the encodings of the instruction.  Nothing here is taken from the
emulator.
-/

namespace Nemu

open LittleEndian

/-! ## Places -/

/-- One byte of the machine: byte `k` of a register, or a byte of memory. -/
inductive ByteLoc
  | reg (i : Fin 8) (k : Fin 4)
  | mem (a : Nat)
  deriving DecidableEq, Repr

/-- Where an operand lives. -/
inductive Place
  | reg (r : Fin 8)
  | mem (addr : Word)
  deriving DecidableEq, Repr

/-- Byte `j` of an operand of the given width.  The byte registers 4 to 7 are the second bytes of
the registers 0 to 3. -/
def Place.byteLoc (p : Place) (width j : Nat) : ByteLoc :=
  match p with
  | .reg r =>
      if width = 1 then .reg ⟨r.val % 4, mod_four_lt_eight r⟩ ⟨r.val / 4, div_four_lt_four r⟩
      else .reg r ⟨j % 4, mod_four_lt_four j⟩
  | .mem addr => .mem (addr.toNat + j)

def Machine.byteAt (s : Machine) : ByteLoc → Byte
  | .reg i k => byteOf (s.cpu.gpr i) k
  | .mem a => s.bus.pmem a

/-- The memory bytes of an operand lie in `pmem`. -/
def Place.InPmem (p : Place) (width : Nat) : Prop :=
  match p with
  | .reg _ => True
  | .mem addr => addr.toNat + width ≤ pmemSize

/-! ## ModR/M -/

/-- A ModR/M byte and what can follow it: the SIB byte and the displacement. -/
structure RM where
  modrm : Byte
  sib : Byte
  disp : Word

namespace RM

def mod (m : RM) : Nat := m.modrm.toNat / 64

def reg (m : RM) : Fin 8 := ⟨m.modrm.toNat / 8 % 8, by omega⟩

def rm (m : RM) : Fin 8 := ⟨m.modrm.toNat % 8, by omega⟩

def scale (m : RM) : Nat := m.sib.toNat / 64

def index (m : RM) : Fin 8 := ⟨m.sib.toNat / 8 % 8, by omega⟩

def base (m : RM) : Fin 8 := ⟨m.sib.toNat % 8, by omega⟩

def hasSib (m : RM) : Bool := m.mod != 3 && m.rm == rEsp

/-- The register that is added, before the special case of `mod` 0. -/
def baseField (m : RM) : Fin 8 := if m.hasSib then m.base else m.rm

/-- The number of bytes of the displacement. -/
def dispSize (m : RM) : Nat :=
  match m.mod with
  | 0 => if m.baseField = rEbp then 4 else 0
  | 1 => 1
  | 2 => 4
  | _ => 0

/-- With `mod` 0 the base EBP stands for no base at all. -/
def baseValue (m : RM) (cpu : CPUState) : Word :=
  if m.mod = 0 ∧ m.baseField = rEbp then 0 else cpu.gpr m.baseField

/-- The index ESP stands for no index. -/
def indexValue (m : RM) (cpu : CPUState) : Word :=
  if m.hasSib ∧ m.index ≠ rEsp then cpu.gpr m.index <<< m.scale else 0

/-- A displacement of one byte is sign-extended. -/
def dispValue (m : RM) : Word :=
  match m.dispSize with
  | 0 => 0
  | 1 => (byteOf m.disp 0).signExtend 32
  | _ => m.disp

def effectiveAddress (m : RM) (cpu : CPUState) : Word :=
  m.baseValue cpu + m.indexValue cpu + m.dispValue

def place (m : RM) (cpu : CPUState) : Place :=
  if m.mod = 3 then .reg m.rm else .mem (m.effectiveAddress cpu)

/-- The bytes behind the ModR/M byte. -/
def tail (m : RM) : List Byte :=
  (if m.hasSib then [m.sib] else []) ++ bytesOf m.disp m.dispSize

def bytes (m : RM) : List Byte := m.modrm :: m.tail

end RM

/-! ## Encodings -/

/-- The forms of `mov`.  The flag `b` picks the byte opcode of each pair. -/
inductive Mov
  | regToRm (b : Bool) (m : RM)
  | rmToReg (b : Bool) (m : RM)
  | moffsToAcc (b : Bool) (addr : Word)
  | accToMoffs (b : Bool) (addr : Word)
  | immToReg (b : Bool) (r : Fin 8) (imm : Word)
  | immToRm (b : Bool) (m : RM) (imm : Word)

/-- What a `mov` moves: the contents of a place or a constant. -/
inductive Source
  | place (p : Place)
  | const (v : Word)

namespace Mov

def isByte : Mov → Bool
  | regToRm b _ | rmToReg b _ | moffsToAcc b _ | accToMoffs b _ | immToReg b _ _ | immToRm b _ _ =>
      b

/-- The operand width under `k` prefixes. -/
def width (i : Mov) (k : Nat) : Nat :=
  if i.isByte then 1 else if k = 0 then 4 else 2

def opcode : Mov → Byte
  | regToRm b _ => if b then 0x88 else 0x89
  | rmToReg b _ => if b then 0x8a else 0x8b
  | moffsToAcc b _ => if b then 0xa0 else 0xa1
  | accToMoffs b _ => if b then 0xa2 else 0xa3
  | immToReg b r _ => (if b then 0xb0 else 0xb8) + BitVec.ofNat 8 r.val
  | immToRm b _ _ => if b then 0xc6 else 0xc7

/-- What follows the opcode, when immediates have `n` bytes. -/
def operands (i : Mov) (n : Nat) : List Byte :=
  match i with
  | regToRm _ m | rmToReg _ m => m.bytes
  | moffsToAcc _ addr | accToMoffs _ addr => bytesOf addr 4
  | immToReg _ _ imm => bytesOf imm n
  | immToRm _ m imm => m.bytes ++ bytesOf imm n

/-- The instruction with `k` operand-size prefixes. -/
def encode (i : Mov) (k : Nat) : List Byte :=
  List.replicate k 0x66 ++ i.opcode :: i.operands (i.width k)

def dest (i : Mov) (cpu : CPUState) : Place :=
  match i with
  | regToRm _ m | immToRm _ m _ => m.place cpu
  | rmToReg _ m => .reg m.reg
  | moffsToAcc _ _ => .reg rEax
  | accToMoffs _ addr => .mem addr
  | immToReg _ r _ => .reg r

def source (i : Mov) (cpu : CPUState) : Source :=
  match i with
  | regToRm _ m => .place (.reg m.reg)
  | rmToReg _ m => .place (m.place cpu)
  | moffsToAcc _ addr => .place (.mem addr)
  | accToMoffs _ _ => .place (.reg rEax)
  | immToReg _ _ imm | immToRm _ _ imm => .const imm

end Mov

/-- Byte `j` of the value moved. -/
def Source.byte (src : Source) (s : Machine) (width j : Nat) : Byte :=
  match src with
  | .place p => s.byteAt (p.byteLoc width j)
  | .const v => byteOf v j

/-- The memory bytes of the source lie in `pmem`. -/
def Source.InPmem (src : Source) (width : Nat) : Prop :=
  match src with
  | .place p => p.InPmem width
  | .const _ => True

end Nemu
