import Nemu.X86.Idiv

/-!
# Divisions that fail on the host

Nothing between a guest division and the division of the host checks the operands.  The division
of the host fails exactly at a zero divisor and, for `idiv` at width 4, at the least dividend and
the divisor -1; a quotient that does not fit is cut off.
-/

namespace Nemu

open StateRules

/-! ## The operands of the host -/

section Traps

variable {n : Nat} {a b : BitVec n}

theorem hostTraps_unsigned_iff : hostTraps false a b = true ↔ b = 0 := by
  rw [hostTraps, Bool.false_and, Bool.false_and, Bool.or_false, beq_iff_eq]

theorem hostTraps_signed_iff :
    hostTraps true a b = true ↔ b = 0 ∨ (a = BitVec.intMin n ∧ b = -1) := by
  rw [hostTraps, Bool.true_and, Bool.or_eq_true, Bool.and_eq_true, beq_iff_eq, beq_iff_eq,
    beq_iff_eq]

end Traps

/-- Dividends of the widths 1 and 2 with the operands of these widths. -/
theorem hostTraps_narrow_iff {signed : Bool} {w : Nat} (hw : w = 1 ∨ w = 2) (a : Word) {v : Word}
    (hv : v.toNat < 2 ^ (8 * w)) : hostTraps signed a v = true ↔ v = 0 := by
  cases signed with
  | false => exact hostTraps_unsigned_iff
  | true =>
    have hlt : v.toNat < 2 ^ 16 := by
      rcases hw with rfl | rfl <;> omega
    have hminus : v ≠ -1 := by
      rintro rfl
      exact absurd hlt (by decide)
    rw [hostTraps_signed_iff]
    exact or_iff_left fun h => hminus h.2

theorem divisor64_eq_zero_iff (signed : Bool) (v : Word) : divisor64 signed v = 0 ↔ v = 0 := by
  cases signed with
  | false =>
    rw [← BitVec.toNat_inj, toNat_divisor64, ← BitVec.toNat_inj]
    rfl
  | true =>
    rw [← BitVec.toInt_inj, divisor64, if_pos rfl, BitVec.toInt_signExtend_of_le (by decide),
      ← BitVec.toInt_inj]
    rfl

theorem divisor64_eq_minusOne_iff (v : Word) : divisor64 true v = -1 ↔ v = 0xffffffff := by
  rw [← BitVec.toInt_inj, divisor64, if_pos rfl, BitVec.toInt_signExtend_of_le (by decide),
    ← BitVec.toInt_inj]
  rfl

theorem dividend64_eq_intMin_iff (cpu : CPUState) :
    BitVec.ofNat 64 (cpu.pair 4) = BitVec.intMin 64 ↔ cpu.pair 4 = 2 ^ 63 := by
  have hpair := pair_lt cpu 4
  have hmin : (BitVec.intMin 64).toNat = 2 ^ 63 := by decide
  rw [← BitVec.toNat_inj, BitVec.toNat_ofNat, Nat.mod_eq_of_lt (by omega), hmin]

/-! ## Where the divisions fail -/

section Divide

variable {signed : Bool} {s : Machine} (instr : List Char)

theorem execDivide_narrow (q r : Word → Word → Word) (q64 r64 : Word → Word → Word → Exec Word)
    {w : Nat} (hw : w = 1 ∨ w = 2) (hdest : (s.decinfo.operand .dest).width = w) :
    FailsExactly (execDivide (hostDivide signed q) (hostDivide signed r) q64 r64 instr) s .divide
      (hostTraps signed (BitVec.ofNat 32 (s.cpu.pair w)) (s.decinfo.operand .dest).val = true) where
  fails h := execDivide_fails instr (storeQuotient_narrow_traps q r q64 r64 hw hdest h)
  returns h := by
    have hno := Bool.eq_false_of_not_eq_true h
    exact (execDivide_spec instr (storeQuotient_narrow q r q64 r64 hw hdest hno)).mono
      fun _ _ _ => trivial

theorem execDivide_wide (q r : Word → Word → Exec Word) (q64 r64 : BitVec 64 → BitVec 64 → BitVec 64)
    (hdest : (s.decinfo.operand .dest).width = 4) :
    FailsExactly (execDivide q r (rtlDivide64 signed q64) (rtlDivide64 signed r64) instr) s .divide
      (hostTraps signed (BitVec.ofNat 64 (s.cpu.pair 4))
        (divisor64 signed (s.decinfo.operand .dest).val) = true) where
  fails h := execDivide_fails instr (storeQuotient_wide_traps q r q64 r64 hdest h)
  returns h := by
    have hno := Bool.eq_false_of_not_eq_true h
    exact (execDivide_spec instr (storeQuotient_wide q r q64 r64 hdest hno)).mono
      fun _ _ _ => trivial

end Divide

section Instructions

variable {s : Machine} {w : Nat}

theorem execDiv_fails (hw : ValidWidth w) (hdest : (s.decinfo.operand .dest).width = w)
    (hval : (s.decinfo.operand .dest).val.toNat < 2 ^ (8 * w)) :
    FailsExactly execDiv s .divide ((s.decinfo.operand .dest).val = 0) := by
  by_cases hfour : w = 4
  · subst hfour
    refine (execDivide_wide _ cDivQ cDivR BitVec.udiv BitVec.umod hdest).of_iff ?_
    rw [hostTraps_unsigned_iff, divisor64_eq_zero_iff]
  · have hnarrow := hw.narrow hfour
    refine (execDivide_narrow _ BitVec.udiv BitVec.umod rtlDiv64Q rtlDiv64R hnarrow hdest).of_iff ?_
    exact hostTraps_narrow_iff hnarrow _ hval

theorem execIdiv_fails (hw : ValidWidth w) (hdest : (s.decinfo.operand .dest).width = w)
    (hval : (s.decinfo.operand .dest).val.toNat < 2 ^ (8 * w)) :
    FailsExactly execIdiv s .divide ((s.decinfo.operand .dest).val = 0 ∨
      (w = 4 ∧ s.cpu.pair 4 = 2 ^ 63 ∧ (s.decinfo.operand .dest).val = 0xffffffff)) := by
  by_cases hfour : w = 4
  · subst hfour
    refine (execDivide_wide _ cIdivQ cIdivR BitVec.sdiv BitVec.srem hdest).of_iff ?_
    rw [hostTraps_signed_iff, divisor64_eq_zero_iff, divisor64_eq_minusOne_iff,
      dividend64_eq_intMin_iff, eq_self_iff_true, true_and]
  · have hnarrow := hw.narrow hfour
    refine (execDivide_narrow _ BitVec.sdiv BitVec.srem rtlIdiv64Q rtlIdiv64R hnarrow hdest).of_iff ?_
    rw [hostTraps_narrow_iff hnarrow _ hval, or_iff_left fun h => hfour h.1]

end Instructions

/-- A guest division fails on the host exactly at a zero operand and, for `idiv`, at the least
dividend of 64 bits over -1.  At all other operands it returns, also where the quotient does not
fit. -/
theorem divisions_fail {s : Machine} {w : Nat} (hw : ValidWidth w)
    (hdest : (s.decinfo.operand .dest).width = w)
    (hval : (s.decinfo.operand .dest).val.toNat < 2 ^ (8 * w)) :
    FailsExactly execDiv s .divide ((s.decinfo.operand .dest).val = 0) ∧
      FailsExactly execIdiv s .divide ((s.decinfo.operand .dest).val = 0 ∨
        (w = 4 ∧ s.cpu.pair 4 = 2 ^ 63 ∧ (s.decinfo.operand .dest).val = 0xffffffff)) :=
  ⟨execDiv_fails hw hdest hval, execIdiv_fails hw hdest hval⟩

/-- A division of AX by zero. -/
theorem divisions_fail_zero :
    FailsExactly execDiv (operandMachine 1 0 (.const 0)) .divide ((0 : Word) = 0) ∧
      FailsExactly execIdiv (operandMachine 1 0 (.const 0)) .divide ((0 : Word) = 0 ∨
        (1 = 4 ∧ (CPUState.const 0).pair 4 = 2 ^ 63 ∧ (0 : Word) = 0xffffffff)) :=
  divisions_fail (Or.inl rfl) rfl (by decide)

/-- `div` by zero divides by zero on the host. -/
theorem execDiv_faults :
    ¬ ∀ (s : Machine) (w : Nat), ValidWidth w → (s.decinfo.operand .dest).width = w →
      (s.decinfo.operand .dest).val.toNat < 2 ^ (8 * w) →
      ¬ Fails execDiv s .divide ∧ ¬ Fails execIdiv s .divide := by
  intro h
  have hdiv := (h (operandMachine 1 0 (.const 0)) 1 (Or.inl rfl) rfl (by decide)).1
  exact hdiv ⟨_, rfl⟩

end Nemu
