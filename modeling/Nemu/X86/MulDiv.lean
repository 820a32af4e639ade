import Nemu.X86.ArithRuns

/-!
# Unsigned multiplication and division

`exec_mul` leaves the whole product in the pair, and `exec_div` the quotient and the remainder.
-/

namespace Nemu

open StateRules

/-! ## mul -/

theorem toNat_cMulLo (a b : Word) : (cMulLo a b).toNat = a.toNat * b.toNat % 2 ^ 32 :=
  BitVec.toNat_mul a b

theorem toNat_cMulHi (a b : Word) : (cMulHi a b).toNat = a.toNat * b.toNat / 2 ^ 32 := by
  have ha := a.isLt
  have hb := b.isLt
  have hprod : a.toNat * b.toNat < 2 ^ 32 * 2 ^ 32 := Nat.mul_lt_mul'' ha hb
  rw [cMulHi, BitVec.toNat_setWidth, BitVec.toNat_ushiftRight, BitVec.toNat_mul,
    BitVec.toNat_setWidth, BitVec.toNat_setWidth, Nat.shiftRight_eq_div_pow,
    Nat.mod_eq_of_lt (by omega : a.toNat < 2 ^ 64), Nat.mod_eq_of_lt (by omega : b.toNat < 2 ^ 64),
    Nat.mod_eq_of_lt (by omega : a.toNat * b.toNat < 2 ^ 64), Nat.mod_eq_of_lt]
  omega

/-- Two numbers of `w` bytes have a product of `2 * w` bytes. -/
theorem mul_lt_pair {w a b : Nat} (ha : a < 2 ^ (8 * w)) (hb : b < 2 ^ (8 * w)) :
    a * b < 2 ^ (8 * (2 * w)) := by
  have hprod := Nat.mul_lt_mul'' ha hb
  rwa [← Nat.pow_add, show 8 * w + 8 * w = 8 * (2 * w) by omega] at hprod

theorem productOf_mul {w : Nat} (hw : ValidWidth w) {v a : Word} (hv : v.toNat < 2 ^ (8 * w))
    (ha : a.toNat < 2 ^ (8 * w)) : productOf cMulLo cMulHi w v a = v.toNat * a.toNat := by
  have hprod := mul_lt_pair hv ha
  rw [productOf, toNat_cMulLo, toNat_cMulHi]
  rcases hw with rfl | rfl | rfl
  · rw [if_neg (by decide), Nat.mod_eq_of_lt]
    omega
  · rw [if_neg (by decide), Nat.mod_eq_of_lt]
    omega
  · rw [if_pos rfl]
    omega

theorem execMul_spec {s : Machine} {w : Nat} (hw : ValidWidth w)
    (hdest : (s.decinfo.operand .dest).width = w)
    (hval : (s.decinfo.operand .dest).val.toNat < 2 ^ (8 * w)) :
    Ensures execMul s fun _ s' =>
      LeavesNumber s w ((s.decinfo.operand .dest).val.toNat * s.cpu.low w) s' := by
  have hspec := execMultiply_spec cMulLo cMulHi ['m', 'u', 'l'] hw hdest
  rwa [productOf_mul hw hval (low_lt s.cpu w)] at hspec

/-- `mul` is exact: AX, DX:AX or EDX:EAX is the product, and no other byte changes. -/
theorem execMul_exact {s : Machine} {w : Nat} (hw : ValidWidth w)
    (hdest : (s.decinfo.operand .dest).width = w)
    (hval : (s.decinfo.operand .dest).val.toNat < 2 ^ (8 * w)) :
    ∃ s', execMul s = .ok ⟨⟩ s' ∧
      s'.cpu.pair w = s.cpu.low w * (s.decinfo.operand .dest).val.toNat ∧
      ∀ a, ¬ InPair w a → s'.cpu.image a = s.cpu.image a := by
  rcases execMul_spec hw hdest hval with ⟨⟨⟩, s', hrun, hnumber⟩
  refine ⟨s', hrun, ?_, hnumber.pair.others⟩
  rw [hnumber.pair_eq (mul_lt_pair hval (low_lt s.cpu w)), Nat.mul_comm]

/-- The largest operands of all. -/
theorem execMul_exact_largest :
    ∃ s', execMul (operandMachine 4 0xffffffff (.const 0xffffffff)) = .ok ⟨⟩ s' ∧
      s'.cpu.pair 4 = (CPUState.const 0xffffffff).low 4 * (0xffffffff : Word).toNat ∧
      ∀ a, ¬ InPair 4 a → s'.cpu.image a = (CPUState.const 0xffffffff).image a :=
  execMul_exact (Or.inr (Or.inr rfl)) rfl (by decide)

/-! ## div -/

theorem pair_lt (cpu : CPUState) (w : Nat) : cpu.pair w < 2 ^ (8 * (2 * w)) := by
  have hhigh := high_lt cpu w
  have hlow := low_lt cpu w
  have hsum : cpu.pair w < (cpu.high w + 1) * 2 ^ (8 * w) := by
    rw [CPUState.pair, Nat.add_mul, Nat.one_mul]
    omega
  have hmul := Nat.mul_le_mul_right (2 ^ (8 * w)) (Nat.succ_le_of_lt hhigh)
  rw [← Nat.pow_add, show 8 * w + 8 * w = 8 * (2 * w) by omega] at hmul
  exact Nat.lt_of_lt_of_le hsum hmul

theorem hostTraps_unsigned {n : Nat} {a b : BitVec n} (h : b ≠ 0) : hostTraps false a b = false := by
  simpa [hostTraps] using h

theorem toNat_udiv {n : Nat} (a b : BitVec n) : (BitVec.udiv a b).toNat = a.toNat / b.toNat := by
  rw [BitVec.udiv_eq, BitVec.toNat_udiv]

theorem toNat_umod {n : Nat} (a b : BitVec n) : (BitVec.umod a b).toNat = a.toNat % b.toNat := by
  rw [BitVec.umod_eq, BitVec.toNat_umod]

theorem toNat_divisor64 (v : Word) : (divisor64 false v).toNat = v.toNat := by
  have hv := v.isLt
  rw [divisor64, if_neg (by decide), BitVec.toNat_setWidth, Nat.mod_eq_of_lt (by omega)]

theorem ValidWidth.narrow {w : Nat} (hw : ValidWidth w) (hfour : w ≠ 4) : w = 1 ∨ w = 2 := by
  rcases hw with h | h | h
  · exact Or.inl h
  · exact Or.inr h
  · exact absurd h hfour

/-- A division leaves the quotient and the remainder of the pair. -/
theorem execDiv_spec {s : Machine} {w : Nat} (hw : ValidWidth w)
    (hdest : (s.decinfo.operand .dest).width = w)
    (hval : (s.decinfo.operand .dest).val.toNat < 2 ^ (8 * w))
    (hne : (s.decinfo.operand .dest).val ≠ 0)
    (hfits : s.cpu.pair w / (s.decinfo.operand .dest).val.toNat < 2 ^ (8 * w)) :
    Ensures execDiv s fun _ s' =>
      LeavesPair s w (s.cpu.pair w % (s.decinfo.operand .dest).val.toNat)
        (s.cpu.pair w / (s.decinfo.operand .dest).val.toNat) s' := by
  have hpos := BitVec.toNat_pos_of_ne_zero hne
  have hrem := Nat.mod_lt (s.cpu.pair w) hpos
  have hpair := pair_lt s.cpu w
  refine execDivide_spec _ ?_
  by_cases hfour : w = 4
  · subst hfour
    have hdivisor : divisor64 false (s.decinfo.operand .dest).val ≠ 0 := by
      intro hzero
      have hnat := congrArg BitVec.toNat hzero
      rw [toNat_divisor64] at hnat
      exact hne (BitVec.eq_of_toNat_eq hnat)
    have hspec := storeQuotient_wide cDivQ cDivR BitVec.udiv BitVec.umod hdest
      (hostTraps_unsigned (a := BitVec.ofNat 64 (s.cpu.pair 4)) hdivisor)
    have hdividend : (BitVec.ofNat 64 (s.cpu.pair 4)).toNat = s.cpu.pair 4 := by
      rw [BitVec.toNat_ofNat, Nat.mod_eq_of_lt (by omega)]
    have hquot : s.cpu.pair 4 / (s.decinfo.operand .dest).val.toNat < 2 ^ 32 := hfits
    have hlt := Nat.lt_trans hrem hval
    rw [toNat_udiv, toNat_umod, hdividend, toNat_divisor64, Nat.mod_eq_of_lt hquot,
      Nat.mod_eq_of_lt hlt] at hspec
    exact hspec
  · have hnarrow := hw.narrow hfour
    have hlt : s.cpu.pair w < 2 ^ 32 := by
      rcases hnarrow with rfl | rfl <;> omega
    have hspec := storeQuotient_narrow BitVec.udiv BitVec.umod rtlDiv64Q rtlDiv64R hnarrow hdest
      (hostTraps_unsigned (a := BitVec.ofNat 32 (s.cpu.pair w)) hne)
    have hdividend : (BitVec.ofNat 32 (s.cpu.pair w)).toNat = s.cpu.pair w := by
      rw [BitVec.toNat_ofNat, Nat.mod_eq_of_lt hlt]
    rw [toNat_udiv, toNat_umod, hdividend, Nat.mod_eq_of_lt hfits,
      Nat.mod_eq_of_lt (by omega)] at hspec
    exact hspec

/-- `div` obeys the law of Euclid, and undoes `mul`. -/
theorem execDiv_euclid {s : Machine} {w : Nat} (hw : ValidWidth w)
    (hdest : (s.decinfo.operand .dest).width = w)
    (hval : (s.decinfo.operand .dest).val.toNat < 2 ^ (8 * w))
    (hne : (s.decinfo.operand .dest).val ≠ 0) :
    (s.cpu.pair w / (s.decinfo.operand .dest).val.toNat < 2 ^ (8 * w) →
      ∃ s', execDiv s = .ok ⟨⟩ s' ∧
        s.cpu.pair w = s'.cpu.low w * (s.decinfo.operand .dest).val.toNat + s'.cpu.high w ∧
        s'.cpu.high w < (s.decinfo.operand .dest).val.toNat ∧
        ∀ a, ¬ InPair w a → s'.cpu.image a = s.cpu.image a) ∧
      ∃ s₁ s₂, execMul s = .ok ⟨⟩ s₁ ∧ execDiv s₁ = .ok ⟨⟩ s₂ ∧
        s₂.cpu.low w = s.cpu.low w ∧ s₂.cpu.high w = 0 := by
  have hpos := BitVec.toNat_pos_of_ne_zero hne
  constructor
  · intro hfits
    rcases execDiv_spec hw hdest hval hne hfits with ⟨⟨⟩, s', hrun, hleaves⟩
    refine ⟨s', hrun, ?_, ?_, hleaves.pair.others⟩
    · rw [hleaves.pair.low, hleaves.pair.high, Nat.div_add_mod']
    · rw [hleaves.pair.high]
      exact Nat.mod_lt _ hpos
  · rcases execMul_spec hw hdest hval with ⟨⟨⟩, s₁, hmul, hnumber⟩
    have hpair := hnumber.pair_eq (mul_lt_pair hval (low_lt s.cpu w))
    have hoperand := congrArg (fun d => d.operand .dest) hnumber.decinfo
    -- the quotient of the product is the accumulator, which fits
    have hquotient : s₁.cpu.pair w / (s₁.decinfo.operand .dest).val.toNat = s.cpu.low w := by
      rw [hpair, hoperand, Nat.mul_div_cancel_left _ hpos]
    rcases @execDiv_spec s₁ w hw (by rw [hoperand, hdest]) (by rwa [hoperand]) (by rwa [hoperand])
        (by rw [hquotient]; exact low_lt s.cpu w) with ⟨⟨⟩, s₂, hdiv, hleaves⟩
    refine ⟨s₁, s₂, hmul, hdiv, by rw [hleaves.pair.low, hquotient], ?_⟩
    rw [hleaves.pair.high, hpair, hoperand, Nat.mul_mod_right]

/-- DX:AX is 0x30003, which 7 divides with the remainder 2. -/
theorem execDiv_euclid_seven :
    ((CPUState.const 3).pair 2 / (7 : Word).toNat < 2 ^ (8 * 2) →
      ∃ s', execDiv (operandMachine 2 7 (.const 3)) = .ok ⟨⟩ s' ∧
        (CPUState.const 3).pair 2 = s'.cpu.low 2 * (7 : Word).toNat + s'.cpu.high 2 ∧
        s'.cpu.high 2 < (7 : Word).toNat ∧
        ∀ a, ¬ InPair 2 a → s'.cpu.image a = (CPUState.const 3).image a) ∧
      ∃ s₁ s₂, execMul (operandMachine 2 7 (.const 3)) = .ok ⟨⟩ s₁ ∧ execDiv s₁ = .ok ⟨⟩ s₂ ∧
        s₂.cpu.low 2 = (CPUState.const 3).low 2 ∧ s₂.cpu.high 2 = 0 :=
  @execDiv_euclid (operandMachine 2 7 (.const 3)) 2 (Or.inr (Or.inl rfl)) rfl (by decide)
    (by decide)

end Nemu
