import Nemu.X86.MulDiv
import Nemu.Lib.ZeroExtension

/-!
# Signed multiplication

`exec_imul1` multiplies the zero-extended operands at the widths 1 and 2.  There it is exact only
where the sign bits do not matter.
-/

namespace Nemu

open StateRules ZeroExtension

/-! ## Width 4 -/

theorem toSigned_four (x : Word) : toSigned 4 x.toNat = x.toInt :=
  (BitVec.toInt_eq_toNat_bmod x).symm

theorem setWidth_signExtend (x : Word) : (x.signExtend 64).setWidth 32 = x := by
  apply BitVec.eq_of_getLsbD_eq
  intro i hi
  have hi64 : i < 64 := by omega
  simp only [BitVec.getLsbD_setWidth, BitVec.getLsbD_signExtend, hi, hi64, decide_true,
    Bool.true_and, if_true]

theorem toNat_cImulLo (a b : Word) :
    (cImulLo a b).toNat = (a.signExtend 64 * b.signExtend 64).toNat % 2 ^ 32 := by
  have hlow : (a.signExtend 64 * b.signExtend 64).setWidth 32 = a * b := by
    rw [BitVec.setWidth_mul _ _ (by decide), setWidth_signExtend, setWidth_signExtend]
  rw [cImulLo, ← hlow, BitVec.toNat_setWidth]

theorem toNat_cImulHi (a b : Word) :
    (cImulHi a b).toNat = (a.signExtend 64 * b.signExtend 64).toNat / 2 ^ 32 := by
  have hshift : ((a.signExtend 64 * b.signExtend 64).sshiftRight 32).setWidth 32 =
      ((a.signExtend 64 * b.signExtend 64) >>> 32).setWidth 32 := by
    apply BitVec.eq_of_getLsbD_eq
    intro i hi
    have hi64 : ¬ 64 ≤ i := by omega
    have hin : 32 + i < 64 := by omega
    simp [BitVec.getLsbD_sshiftRight, hi, hi64, hin]
  have hlt := (a.signExtend 64 * b.signExtend 64).isLt
  rw [cImulHi, hshift, BitVec.toNat_setWidth, BitVec.toNat_ushiftRight, Nat.shiftRight_eq_div_pow,
    Nat.mod_eq_of_lt]
  omega

/-- The product of two words fits in 64 bits. -/
theorem toInt_mul_signExtend (a b : Word) :
    (a.signExtend 64 * b.signExtend 64).toInt = a.toInt * b.toInt := by
  have hbounds : ∀ x : Word, -2147483648 ≤ x.toInt ∧ x.toInt ≤ 2147483647 := by
    intro x
    have hle := BitVec.le_toInt x
    have hlt := BitVec.toInt_lt (x := x)
    omega
  rcases hbounds a with ⟨ha, ha'⟩
  rcases hbounds b with ⟨hb, hb'⟩
  have hlow : -4611686018427387904 ≤ a.toInt * b.toInt := by nlinarith
  have hhigh : a.toInt * b.toInt ≤ 4611686018427387904 := by nlinarith
  rw [BitVec.toInt_mul, BitVec.toInt_signExtend_of_le (by decide),
    BitVec.toInt_signExtend_of_le (by decide), Int.bmod_eq_of_le (by omega) (by omega)]

theorem productOf_imul_four (v a : Word) :
    productOf cImulLo cImulHi 4 v a = (v.signExtend 64 * a.signExtend 64).toNat := by
  rw [productOf, if_pos rfl, toNat_cImulLo, toNat_cImulHi, Nat.div_add_mod']

theorem toSigned_productOf_four (v a : Word) :
    toSigned 8 (productOf cImulLo cImulHi 4 v a) = toSigned 4 v.toNat * toSigned 4 a.toNat := by
  rw [productOf_imul_four, toSigned_four, toSigned_four, ← toInt_mul_signExtend]
  exact (BitVec.toInt_eq_toNat_bmod _).symm

/-! ## Widths 1 and 2 -/

theorem two_pow_half {w : Nat} (hw : 0 < w) : (2 : Int) ^ (8 * w) = 2 * 2 ^ (8 * w - 1) := by
  rw [← pow_succ', show 8 * w - 1 + 1 = 8 * w by omega]

theorem toSigned_eq {w n : Nat} (hw : 0 < w) (hn : n < 2 ^ (8 * w)) :
    toSigned w n = signed (2 ^ (8 * w - 1)) n := by
  have hhalf : 2 ^ (8 * w) = 2 * 2 ^ (8 * w - 1) := by
    rw [← Nat.pow_succ', Nat.succ_eq_add_one, show 8 * w - 1 + 1 = 8 * w by omega]
  have hcast : ((2 ^ (8 * w - 1) : Nat) : Int) = 2 ^ (8 * w - 1) := by norm_cast
  have hmod : (n : Int) % (2 ^ (8 * w) : Nat) = n := Int.emod_eq_of_lt (by omega) (by omega)
  rw [toSigned, signed, Int.bmod_def, hmod, ← hcast]
  by_cases hlow : n < 2 ^ (8 * w - 1)
  · rw [if_pos (by omega), if_pos (by omega)]
  · rw [if_neg (by omega), if_neg (by omega)]
    omega

theorem productOf_imul_narrow {w : Nat} (hw : w = 1 ∨ w = 2) {v a : Word}
    (hv : v.toNat < 2 ^ (8 * w)) (ha : a.toNat < 2 ^ (8 * w)) :
    productOf cImulLo cImulHi w v a = v.toNat * a.toNat := by
  have hprod := mul_lt_pair hv ha
  rw [productOf, cImulLo, BitVec.toNat_mul]
  rcases hw with rfl | rfl
  · rw [if_neg (by decide), Nat.mod_eq_of_lt]
    omega
  · rw [if_neg (by decide), Nat.mod_eq_of_lt]
    omega

/-- Where the product of two zero-extended numbers is their signed product. -/
theorem toSigned_mul_iff {w v a : Nat} (hw : 0 < w) (hv : v < 2 ^ (8 * w)) (ha : a < 2 ^ (8 * w)) :
    toSigned (2 * w) (v * a) = toSigned w v * toSigned w a ↔
      (0 ≤ toSigned w a ∧ 0 ≤ toSigned w v) ∨ toSigned w a = 0 ∨ toSigned w v = 0 ∨
        (toSigned w a = -2 ^ (8 * w - 1) ∧ toSigned w v = -2 ^ (8 * w - 1)) := by
  have hsquare : (2 : Int) ^ (8 * (2 * w) - 1) = 2 * 2 ^ (8 * w - 1) * 2 ^ (8 * w - 1) := by
    rw [← pow_succ', ← pow_add]
    congr 1
    omega
  have hrange : ∀ n : Nat, n < 2 ^ (8 * w) → 0 ≤ (n : Int) ∧ (n : Int) < 2 * 2 ^ (8 * w - 1) := by
    intro n hn
    rw [← two_pow_half hw]
    exact ⟨Int.natCast_nonneg n, by exact_mod_cast hn⟩
  rw [toSigned_eq (by omega) (mul_lt_pair hv ha), toSigned_eq hw hv, toSigned_eq hw ha, hsquare,
    Nat.cast_mul]
  exact signed_mul_iff (hrange v hv) (hrange a ha)

/-! ## imul with one operand -/

theorem execImul1_spec {s : Machine} {w : Nat} (hw : ValidWidth w)
    (hdest : (s.decinfo.operand .dest).width = w) :
    Ensures execImul1 s fun _ s' => LeavesNumber s w
      (productOf cImulLo cImulHi w (s.decinfo.operand .dest).val (s.cpu.sub rEax w)) s' :=
  execMultiply_spec cImulLo cImulHi ['i', 'm', 'u', 'l'] hw hdest

/-- `imul` leaves the signed product at width 4, and at the widths 1 and 2 only if no operand is
negative, one of them is zero or both are the least number.  The other bytes never change. -/
theorem execImul1_exact_iff {s : Machine} {w : Nat} (hw : ValidWidth w)
    (hdest : (s.decinfo.operand .dest).width = w)
    (hval : (s.decinfo.operand .dest).val.toNat < 2 ^ (8 * w)) :
    (∃ s', execImul1 s = .ok ⟨⟩ s' ∧
      toSigned (2 * w) (s'.cpu.pair w) =
        toSigned w (s.cpu.low w) * toSigned w (s.decinfo.operand .dest).val.toNat ∧
      ∀ a, ¬ InPair w a → s'.cpu.image a = s.cpu.image a) ↔
    w = 4 ∨
      (0 ≤ toSigned w (s.cpu.low w) ∧ 0 ≤ toSigned w (s.decinfo.operand .dest).val.toNat) ∨
      toSigned w (s.cpu.low w) = 0 ∨ toSigned w (s.decinfo.operand .dest).val.toNat = 0 ∨
      (toSigned w (s.cpu.low w) = -2 ^ (8 * w - 1) ∧
        toSigned w (s.decinfo.operand .dest).val.toNat = -2 ^ (8 * w - 1)) := by
  rcases execImul1_spec hw hdest with ⟨⟨⟩, s', hrun, hnumber⟩
  have hreduce : (∃ s', execImul1 s = .ok ⟨⟩ s' ∧
      toSigned (2 * w) (s'.cpu.pair w) =
        toSigned w (s.cpu.low w) * toSigned w (s.decinfo.operand .dest).val.toNat ∧
      ∀ a, ¬ InPair w a → s'.cpu.image a = s.cpu.image a) ↔
      toSigned (2 * w) (s'.cpu.pair w) =
        toSigned w (s.decinfo.operand .dest).val.toNat * toSigned w (s.cpu.low w) := by
    rw [mul_comm (toSigned w (s.decinfo.operand .dest).val.toNat)]
    constructor
    · rintro ⟨t, ht, hproduct, -⟩
      rw [hrun] at ht
      cases ht
      exact hproduct
    · exact fun h => ⟨s', hrun, h, hnumber.pair.others⟩
  rw [hreduce]
  by_cases hfour : w = 4
  · subst hfour
    have hlt : productOf cImulLo cImulHi 4 (s.decinfo.operand .dest).val (s.cpu.sub rEax 4) <
        2 ^ (8 * (2 * 4)) := by
      rw [productOf_imul_four]
      exact BitVec.isLt _
    rw [hnumber.pair_eq hlt]
    exact iff_of_true (toSigned_productOf_four _ _) (Or.inl rfl)
  · have hnarrow := hw.narrow hfour
    have hlt := mul_lt_pair hval (low_lt s.cpu w)
    rw [productOf_imul_narrow hnarrow hval (low_lt s.cpu w)] at hnumber
    rw [hnumber.pair_eq hlt, or_iff_right hfour]
    exact toSigned_mul_iff hw.bounds.1 hval (low_lt s.cpu w)

/-- 2 times -1 in a byte. -/
theorem execImul1_exact_iff_minusOne :
    (∃ s', execImul1 (operandMachine 1 2 (.const 0xff)) = .ok ⟨⟩ s' ∧
      toSigned (2 * 1) (s'.cpu.pair 1) =
        toSigned 1 ((CPUState.const 0xff).low 1) * toSigned 1 (2 : Word).toNat ∧
      ∀ a, ¬ InPair 1 a → s'.cpu.image a = (CPUState.const 0xff).image a) ↔
    1 = 4 ∨
      (0 ≤ toSigned 1 ((CPUState.const 0xff).low 1) ∧ 0 ≤ toSigned 1 (2 : Word).toNat) ∨
      toSigned 1 ((CPUState.const 0xff).low 1) = 0 ∨ toSigned 1 (2 : Word).toNat = 0 ∨
      (toSigned 1 ((CPUState.const 0xff).low 1) = -2 ^ (8 * 1 - 1) ∧
        toSigned 1 (2 : Word).toNat = -2 ^ (8 * 1 - 1)) :=
  execImul1_exact_iff (Or.inl rfl) rfl (by decide)

/-- `imul` leaves 510 for the product of 2 and -1. -/
theorem execImul1_inexact :
    ¬ ∀ (s : Machine) (w : Nat), ValidWidth w → (s.decinfo.operand .dest).width = w →
      (s.decinfo.operand .dest).val.toNat < 2 ^ (8 * w) →
      ∃ s', execImul1 s = .ok ⟨⟩ s' ∧
        toSigned (2 * w) (s'.cpu.pair w) =
          toSigned w (s.cpu.low w) * toSigned w (s.decinfo.operand .dest).val.toNat ∧
        ∀ a, ¬ InPair w a → s'.cpu.image a = s.cpu.image a := by
  intro h
  rcases h (operandMachine 1 2 (.const 0xff)) 1 (Or.inl rfl) rfl (by decide) with
    ⟨s', hrun, hproduct, -⟩
  have hpair : (final (execImul1 (operandMachine 1 2 (.const 0xff)))).cpu.pair 1 = 510 := by decide
  rw [hrun, final_ok] at hpair
  rw [hpair] at hproduct
  exact absurd hproduct (by decide)

end Nemu
