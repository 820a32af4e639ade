import Mathlib.Algebra.Group.Int.Defs
import Nemu.X86.Arith
import Nemu.X86.RegUnion

/-!
# The accumulator and its extension

The one-operand multiplications and divisions work on AL, AX or EAX and on AH, DX or EDX, which
together make up AX, DX:AX or EDX:EAX.  `PairSet` says that a pair has got two given halves and
that no other byte of the registers has changed.
-/

namespace Nemu

open LittleEndian StateRules

/-! ## Numbers in the registers -/

/-- AH, DX or EDX. -/
def highReg (w : Nat) : Fin 8 := if w = 1 then rAh else rEdx

/-- AL, AX or EAX as an unsigned number. -/
def CPUState.low (cpu : CPUState) (w : Nat) : Nat := (cpu.sub rEax w).toNat

def CPUState.high (cpu : CPUState) (w : Nat) : Nat := (cpu.sub (highReg w) w).toNat

/-- AX, DX:AX or EDX:EAX. -/
def CPUState.pair (cpu : CPUState) (w : Nat) : Nat := cpu.high w * 2 ^ (8 * w) + cpu.low w

/-- The offsets of the bytes of a pair. -/
def InPair (w a : Nat) : Prop :=
  (subReg rEax w ≤ a ∧ a < subReg rEax w + w) ∨
    (subReg (highReg w) w ≤ a ∧ a < subReg (highReg w) w + w)

/-- A number of `w` bytes in two's complement: the one of its residue class that lies between
`-2 ^ (8 * w - 1)` and `2 ^ (8 * w - 1) - 1`. -/
def toSigned (w n : Nat) : Int := (n : Int).bmod (2 ^ (8 * w))

theorem low_lt (cpu : CPUState) (w : Nat) : cpu.low w < 2 ^ (8 * w) := toNat_load_lt _ _ _

theorem high_lt (cpu : CPUState) (w : Nat) : cpu.high w < 2 ^ (8 * w) := toNat_load_lt _ _ _

/-- AX is AH and AL. -/
theorem pair_one (cpu : CPUState) : cpu.pair 1 = (cpu.sub rEax 2).toNat := by
  have hax := toNat_load_succ cpu.image 0 (n := 1) (by decide)
  rw [Nat.zero_add] at hax
  have hal : cpu.low 1 = (cpu.image 0).toNat := by
    change (load cpu.image 0 1).toNat = _
    rw [load_one, BitVec.toNat_setWidth, Nat.mod_eq_of_lt]
    have hbyte := (cpu.image 0).isLt
    omega
  have hsub : (cpu.sub rEax 2).toNat = (load cpu.image 0 2).toNat := rfl
  have hah : cpu.high 1 = (load cpu.image 1 1).toNat := rfl
  rw [CPUState.pair, hsub, hax, hal, hah]
  omega

/-- A machine about to execute an instruction on an operand of the given width and value. -/
def operandMachine (w : Nat) (val : Word) (cpu : CPUState) : Machine :=
  { Machine.zero with
    cpu, decinfo := { DecodeInfo.zero with operand := fun _ => ⟨.reg, w, 0, val, []⟩ } }

/-- All registers hold the same word. -/
def CPUState.const (v : Word) : CPUState := { gpr := fun _ => v, pc := 0 }

/-! ## Written halves -/

section Sub

variable (cpu : CPUState) {r r' : Fin 8} {w w' : Nat}

theorem sub_put_self (hw : ValidWidth w) (v : Word) :
    ((cpu.put r w v).sub r w).toNat = v.toNat % 2 ^ (8 * w) := by
  have hbounds := hw.bounds
  have hload := load_store_within cpu.image (subReg r w) v (k := 0) (m := w) (n := w) (by omega)
  rw [Nat.add_zero] at hload
  rw [CPUState.sub, put_image cpu r hw, hload, toNat_load_byteOf v (by omega), Nat.mul_zero,
    Nat.pow_zero, Nat.div_one]

theorem sub_put_of_disjoint (hw : ValidWidth w) (v : Word)
    (h : subReg r' w' + w' ≤ subReg r w ∨ subReg r w + w ≤ subReg r' w') :
    (cpu.put r w v).sub r' w' = cpu.sub r' w' := by
  rw [CPUState.sub, CPUState.sub, put_image cpu r hw, load_store_of_disjoint _ _ h]

theorem image_put_of_outside (hw : ValidWidth w) (v : Word) {a : Nat}
    (h : ¬ (subReg r w ≤ a ∧ a < subReg r w + w)) : (cpu.put r w v).image a = cpu.image a := by
  rw [put_image cpu r hw, store_apply, if_neg h]

end Sub

/-- The pair has got the halves `hi` and `lo`, and the other bytes are as they were. -/
structure PairSet (cpu : CPUState) (w hi lo : Nat) (cpu' : CPUState) : Prop where
  high : cpu'.high w = hi
  low : cpu'.low w = lo
  others : ∀ a, ¬ InPair w a → cpu'.image a = cpu.image a

theorem PairSet.pair {cpu cpu' : CPUState} {w hi lo : Nat} (h : PairSet cpu w hi lo cpu') :
    cpu'.pair w = hi * 2 ^ (8 * w) + lo := by
  rw [CPUState.pair, h.high, h.low]

/-- The halves lie apart. -/
theorem subReg_highReg {w : Nat} (hw : ValidWidth w) :
    subReg rEax w + w ≤ subReg (highReg w) w := by
  rcases hw with rfl | rfl | rfl <;> decide

section PairSet

variable (cpu : CPUState) {w : Nat}

theorem pairSet_low_high (hw : ValidWidth w) (lo hi : Word) :
    PairSet cpu w (hi.toNat % 2 ^ (8 * w)) (lo.toNat % 2 ^ (8 * w))
      ((cpu.put rEax w lo).put (highReg w) w hi) where
  high := sub_put_self _ hw hi
  low := by
    rw [CPUState.low, sub_put_of_disjoint _ hw hi (Or.inl (subReg_highReg hw)),
      sub_put_self _ hw lo]
  others a ha := by
    rw [image_put_of_outside _ hw hi fun h => ha (Or.inr h),
      image_put_of_outside _ hw lo fun h => ha (Or.inl h)]

theorem pairSet_high_low (hw : ValidWidth w) (lo hi : Word) :
    PairSet cpu w (hi.toNat % 2 ^ (8 * w)) (lo.toNat % 2 ^ (8 * w))
      ((cpu.put (highReg w) w hi).put rEax w lo) where
  high := by
    rw [CPUState.high, sub_put_of_disjoint _ hw lo (Or.inr (subReg_highReg hw)),
      sub_put_self _ hw hi]
  low := sub_put_self _ hw lo
  others a ha := by
    rw [image_put_of_outside _ hw lo fun h => ha (Or.inl h),
      image_put_of_outside _ hw hi fun h => ha (Or.inr h)]

/-- AX is written as a whole. -/
theorem pairSet_ax (v : Word) :
    PairSet cpu 1 (v.toNat / 2 ^ 8 % 2 ^ 8) (v.toNat % 2 ^ 8) (cpu.put rEax 2 v) := by
  have hw : ValidWidth 2 := Or.inr (Or.inl rfl)
  have himage := put_image cpu rEax hw v
  refine ⟨?_, ?_, fun a ha => image_put_of_outside _ hw v fun h => ha ?_⟩
  · have hload := load_store_within cpu.image (subReg rEax 2) v (k := 1) (m := 1) (n := 2)
      (by decide)
    change (load (cpu.put rEax 2 v).image (subReg rEax 2 + 1) 1).toNat = _
    rw [himage, hload, toNat_load_byteOf v (by decide)]
  · have hload := load_store_within cpu.image (subReg rEax 2) v (k := 0) (m := 1) (n := 2)
      (by decide)
    change (load (cpu.put rEax 2 v).image (subReg rEax 2 + 0) 1).toNat = _
    rw [himage, hload, toNat_load_byteOf v (by decide), Nat.mul_zero, Nat.pow_zero, Nat.div_one]
  · have hbytes : subReg rEax 2 = 0 ∧ subReg rEax 1 = 0 ∧ subReg (highReg 1) 1 = 1 := by decide
    rw [InPair]
    omega

end PairSet

end Nemu
