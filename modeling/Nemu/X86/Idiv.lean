import Nemu.X86.Imul

/-!
# Signed division

`exec_idiv` divides the zero-extended operands at width 1, and by a zero-extended divisor at
width 2.  `IdivExact` are the operands at which it follows the manual all the same.
-/

namespace Nemu

open StateRules ZeroExtension

/-! ## What the host divides -/

def hostDividend (cpu : CPUState) (w : Nat) : Int :=
  if w = 1 then cpu.pair 1 else toSigned (2 * w) (cpu.pair w)

def hostDivisor (w : Nat) (v : Word) : Int :=
  if w = 4 then toSigned 4 v.toNat else v.toNat

/-- The low bytes of a word, read as a signed number. -/
theorem toSigned_mod {n w : Nat} (x : BitVec n) (h : 8 * w ≤ n) :
    toSigned w (x.toNat % 2 ^ (8 * w)) = x.toInt.bmod (2 ^ (8 * w)) := by
  rw [BitVec.toInt_eq_toNat_bmod, Int.bmod_bmod_of_dvd (Nat.pow_dvd_pow 2 h), toSigned,
    Int.natCast_mod, Int.emod_bmod]

/-- The low bytes of a quotient and of a remainder of the host. -/
theorem toSigned_sdiv {n w : Nat} (a b : BitVec n) (h : 8 * w ≤ n) :
    toSigned w ((a.sdiv b).toNat % 2 ^ (8 * w)) = (a.toInt.tdiv b.toInt).bmod (2 ^ (8 * w)) := by
  rw [toSigned_mod _ h, BitVec.toInt_sdiv, Int.bmod_bmod_of_dvd (Nat.pow_dvd_pow 2 h)]

theorem toSigned_srem {n w : Nat} (a b : BitVec n) (h : 8 * w ≤ n) :
    toSigned w ((a.srem b).toNat % 2 ^ (8 * w)) = (a.toInt.tmod b.toInt).bmod (2 ^ (8 * w)) := by
  rw [toSigned_mod _ h, BitVec.toInt_srem]

theorem toInt_hostDividend (cpu : CPUState) {w : Nat} (hw : w = 1 ∨ w = 2) :
    (BitVec.ofNat 32 (cpu.pair w)).toInt = hostDividend cpu w := by
  rw [BitVec.toInt_ofNat']
  rcases hw with rfl | rfl
  · have hpair := pair_lt cpu 1
    rw [hostDividend, if_pos rfl, Int.bmod_eq_of_le (by omega) (by omega)]
  · rw [hostDividend, if_neg (by decide), toSigned]

theorem toInt_hostDividend_four (cpu : CPUState) :
    (BitVec.ofNat 64 (cpu.pair 4)).toInt = hostDividend cpu 4 := by
  rw [BitVec.toInt_ofNat', hostDividend, if_neg (by decide), toSigned]

theorem toInt_hostDivisor {w : Nat} (hw : w = 1 ∨ w = 2) {v : Word} (hv : v.toNat < 2 ^ (8 * w)) :
    v.toInt = hostDivisor w v := by
  have hlt : v.toNat < 2 ^ 16 := by
    rcases hw with rfl | rfl <;> omega
  have hfour : w ≠ 4 := by omega
  rw [hostDivisor, if_neg hfour, BitVec.toInt_eq_toNat_bmod, Int.bmod_eq_of_le (by omega) (by omega)]

theorem toInt_divisor64 (v : Word) : (divisor64 true v).toInt = hostDivisor 4 v := by
  rw [divisor64, if_pos rfl, BitVec.toInt_signExtend_of_le (by decide), hostDivisor, if_pos rfl,
    toSigned_four]

/-! ## What it leaves -/

theorem hostTraps_eq_false {n : Nat} (hn : 0 < n) {a b : BitVec n} (hzero : b.toInt ≠ 0)
    (hfits : ¬ (a.toInt = -2 ^ (n - 1) ∧ b.toInt = -1)) : hostTraps true a b = false := by
  rw [hostTraps, Bool.or_eq_false_iff, Bool.true_and, Bool.and_eq_false_imp]
  constructor
  · rw [beq_eq_false_iff_ne]
    rintro rfl
    exact hzero BitVec.toInt_zero
  · intro hmin
    rw [beq_eq_false_iff_ne]
    intro hminus
    refine hfits ⟨?_, ?_⟩
    · rw [eq_of_beq hmin, BitVec.toInt_intMin_of_pos hn]
    · have hones : (-1 : BitVec n) = BitVec.allOnes n := BitVec.neg_one_eq_allOnes
      rw [hminus, hones, BitVec.toInt_allOnes, if_pos hn]

/-- The halves of the pair are a quotient and a remainder, as far as they fit. -/
structure LeavesSigned (s : Machine) (w : Nat) (q r : Int) (s' : Machine) : Prop where
  low : toSigned w (s'.cpu.low w) = q.bmod (2 ^ (8 * w))
  high : toSigned w (s'.cpu.high w) = r.bmod (2 ^ (8 * w))
  others : ∀ a, ¬ InPair w a → s'.cpu.image a = s.cpu.image a

theorem execIdiv_spec {s : Machine} {w : Nat} (hw : ValidWidth w)
    (hdest : (s.decinfo.operand .dest).width = w)
    (hval : (s.decinfo.operand .dest).val.toNat < 2 ^ (8 * w))
    (hne : (s.decinfo.operand .dest).val ≠ 0)
    (hfits : ¬ (w = 4 ∧ hostDividend s.cpu 4 = -2 ^ 63 ∧
      hostDivisor 4 (s.decinfo.operand .dest).val = -1)) :
    Ensures execIdiv s fun _ s' =>
      LeavesSigned s w
        ((hostDividend s.cpu w).tdiv (hostDivisor w (s.decinfo.operand .dest).val))
        ((hostDividend s.cpu w).tmod (hostDivisor w (s.decinfo.operand .dest).val)) s' := by
  by_cases hfour : w = 4
  · subst hfour
    have hno : hostTraps true (BitVec.ofNat 64 (s.cpu.pair 4))
        (divisor64 true (s.decinfo.operand .dest).val) = false := by
      apply hostTraps_eq_false (by decide)
      · rw [toInt_divisor64, hostDivisor, if_pos rfl, toSigned_four]
        exact fun hzero => hne (BitVec.toInt_inj.1 hzero)
      · rw [toInt_hostDividend_four, toInt_divisor64]
        exact fun h => hfits ⟨rfl, h⟩
    rcases execDivide_spec ['i', 'd', 'i', 'v'] (storeQuotient_wide cIdivQ cIdivR BitVec.sdiv
      BitVec.srem hdest hno) with ⟨⟨⟩, s', hrun, hleaves⟩
    refine ⟨⟨⟩, s', hrun, ⟨?_, ?_, hleaves.pair.others⟩⟩
    · rw [hleaves.pair.low, ← toInt_hostDividend_four, ← toInt_divisor64]
      exact toSigned_sdiv _ _ (by decide)
    · rw [hleaves.pair.high, ← toInt_hostDividend_four, ← toInt_divisor64]
      exact toSigned_srem _ _ (by decide)
  · have hnarrow := hw.narrow hfour
    have hdivisor := toInt_hostDivisor hnarrow hval
    have hnonneg : hostDivisor w (s.decinfo.operand .dest).val =
        (s.decinfo.operand .dest).val.toNat := if_neg hfour
    have hno : hostTraps true (BitVec.ofNat 32 (s.cpu.pair w)) (s.decinfo.operand .dest).val =
        false := by
      apply hostTraps_eq_false (by decide)
      · exact fun hzero => hne (BitVec.toInt_inj.1 hzero)
      · rw [hdivisor, hnonneg]
        omega
    have hle : 8 * w ≤ 32 := by omega
    rcases execDivide_spec ['i', 'd', 'i', 'v'] (storeQuotient_narrow BitVec.sdiv BitVec.srem
      rtlIdiv64Q rtlIdiv64R hnarrow hdest hno) with ⟨⟨⟩, s', hrun, hleaves⟩
    refine ⟨⟨⟩, s', hrun, ⟨?_, ?_, hleaves.pair.others⟩⟩
    · rw [hleaves.pair.low, ← toInt_hostDividend _ hnarrow, ← hdivisor]
      exact toSigned_sdiv _ _ hle
    · rw [hleaves.pair.high, ← toInt_hostDividend _ hnarrow, ← hdivisor]
      exact toSigned_srem _ _ hle

/-! ## Where it is exact -/

/-- At width 1 a negative dividend is zero-extended as well. -/
def IdivExact (w : Nat) (D v : Int) : Prop :=
  if w = 1 ∧ D < 0 then (0 < v ∧ v ∣ 2 ^ 8 ∧ v ∣ D) ∨ (v < 0 ∧ D = -(v * v))
  else w = 4 ∨ 0 < v ∨ |D| < |v| ∨
    (v = -2 ^ (8 * w - 1) ∧ 2 ^ (8 * w - 1) * 2 ^ (8 * w - 1) ≤ D)

theorem natCast_modulus {w : Nat} (hw : 0 < w) :
    ((2 ^ (8 * w) : Nat) : Int) = 2 * 2 ^ (8 * w - 1) := by
  rw [← two_pow_half hw]
  norm_cast

theorem toSigned_range {w : Nat} (hw : 0 < w) (n : Nat) :
    -2 ^ (8 * w - 1) ≤ toSigned w n ∧ toSigned w n < 2 ^ (8 * w - 1) := by
  have hle := Int.le_bmod (x := n) (Nat.two_pow_pos (8 * w))
  have hlt := Int.bmod_lt (x := n) (Nat.two_pow_pos (8 * w))
  rw [natCast_modulus hw] at hle hlt
  rw [toSigned]
  omega

/-- A residue that is in range is the one that `bmod` picks. -/
theorem bmod_eq_iff_modEq {w : Nat} (hw : 0 < w) {x y : Int} (hlow : -2 ^ (8 * w - 1) ≤ y)
    (hhigh : y < 2 ^ (8 * w - 1)) :
    x.bmod (2 ^ (8 * w)) = y ↔ x ≡ y [ZMOD 2 * 2 ^ (8 * w - 1)] := by
  rw [Int.bmod_eq_iff (Nat.two_pow_pos _), natCast_modulus hw, Int.modEq_iff_dvd]
  constructor
  · exact fun h => h.2.2
  · exact fun h => ⟨by omega, by omega, h⟩

/-- A remainder is smaller than the divisor, and fits. -/
theorem tmod_range {w : Nat} (hw : 0 < w) (D : Int) {n : Nat} (hne : toSigned w n ≠ 0) :
    -2 ^ (8 * w - 1) ≤ D.tmod (toSigned w n) ∧ D.tmod (toSigned w n) < 2 ^ (8 * w - 1) := by
  have hrange := toSigned_range hw n
  have htruncates : Truncates D (toSigned w n) (D.tdiv (toSigned w n)) (D.tmod (toSigned w n)) :=
    (truncates_iff hne).2 ⟨rfl, rfl⟩
  have hrem := abs_lt.1 htruncates.2.1
  have hle : |toSigned w n| ≤ 2 ^ (8 * w - 1) := abs_le.2 ⟨hrange.1, by omega⟩
  omega

theorem hostDivisor_narrow {w : Nat} (hw : w = 1 ∨ w = 2) {v : Word} (hv : v.toNat < 2 ^ (8 * w)) :
    hostDivisor w v = extended (2 ^ (8 * w - 1)) (toSigned w v.toNat) := by
  have hpos : 0 < w := by omega
  have hfour : w ≠ 4 := by omega
  have hlt : (v.toNat : Int) < 2 * 2 ^ (8 * w - 1) := by
    rw [← two_pow_half hpos]
    exact_mod_cast hv
  rw [hostDivisor, if_neg hfour, toSigned_eq hpos hv, extended_signed ⟨Int.natCast_nonneg _, hlt⟩]

theorem hostDividend_one (cpu : CPUState) :
    hostDividend cpu 1 = extended (2 * 2 ^ 7 * 2 ^ 7) (toSigned (2 * 1) (cpu.pair 1)) := by
  have hpair := pair_lt cpu 1
  have hhalf : (2 : Int) ^ (8 * (2 * 1) - 1) = 2 * 2 ^ 7 * 2 ^ 7 := by norm_num
  rw [hostDividend, if_pos rfl, toSigned_eq (by decide) hpair, hhalf, extended_signed]
  omega

theorem tdiv_host_iff {cpu : CPUState} {w : Nat} (hw : ValidWidth w) {v : Word}
    (hval : v.toNat < 2 ^ (8 * w)) (hne : toSigned w v.toNat ≠ 0)
    (hlow : -2 ^ (8 * w - 1) ≤ (toSigned (2 * w) (cpu.pair w)).tdiv (toSigned w v.toNat))
    (hhigh : (toSigned (2 * w) (cpu.pair w)).tdiv (toSigned w v.toNat) < 2 ^ (8 * w - 1)) :
    ((hostDividend cpu w).tdiv (hostDivisor w v) ≡
          (toSigned (2 * w) (cpu.pair w)).tdiv (toSigned w v.toNat) [ZMOD 2 * 2 ^ (8 * w - 1)] ∧
        (hostDividend cpu w).tmod (hostDivisor w v) ≡
          (toSigned (2 * w) (cpu.pair w)).tmod (toSigned w v.toNat) [ZMOD 2 * 2 ^ (8 * w - 1)]) ↔
      IdivExact w (toSigned (2 * w) (cpu.pair w)) (toSigned w v.toNat) := by
  have hrange := toSigned_range hw.bounds.1 v.toNat
  by_cases hfour : w = 4
  · subst hfour
    have hdividend : hostDividend cpu 4 = toSigned (2 * 4) (cpu.pair 4) := if_neg (by decide)
    have hdivisor : hostDivisor 4 v = toSigned 4 v.toNat := if_pos rfl
    rw [hdividend, hdivisor, IdivExact, if_neg (by omega)]
    exact iff_of_true ⟨rfl, rfl⟩ (Or.inl rfl)
  · have hnarrow := hw.narrow hfour
    rw [hostDivisor_narrow hnarrow hval]
    by_cases hneg : w = 1 ∧ toSigned (2 * w) (cpu.pair w) < 0
    · rcases hneg with ⟨rfl, hneg⟩
      have hleast := (toSigned_range (by decide : 0 < 2 * 1) (cpu.pair 1)).1
      rw [hostDividend_one, IdivExact, if_pos ⟨rfl, hneg⟩]
      exact extended_tdiv_extended_iff hrange hne hneg (by omega) hhigh
    · have hdividend : hostDividend cpu w = toSigned (2 * w) (cpu.pair w) := by
        by_cases hone : w = 1
        · subst hone
          rw [hostDividend_one]
          exact if_pos (by omega)
        · exact if_neg hone
      rw [hdividend, IdivExact, if_neg hneg, or_iff_right hfour]
      exact tdiv_extended_iff hrange hne hlow hhigh

/-- `idiv` leaves the signed quotient and remainder exactly where the sign bits do not matter. -/
theorem execIdiv_euclid_iff {s : Machine} {w : Nat} (hw : ValidWidth w)
    (hdest : (s.decinfo.operand .dest).width = w)
    (hval : (s.decinfo.operand .dest).val.toNat < 2 ^ (8 * w))
    (hne : toSigned w (s.decinfo.operand .dest).val.toNat ≠ 0)
    (hlow : -2 ^ (8 * w - 1) ≤
      (toSigned (2 * w) (s.cpu.pair w)).tdiv (toSigned w (s.decinfo.operand .dest).val.toNat))
    (hhigh : (toSigned (2 * w) (s.cpu.pair w)).tdiv
      (toSigned w (s.decinfo.operand .dest).val.toNat) < 2 ^ (8 * w - 1)) :
    (∃ s', execIdiv s = .ok ⟨⟩ s' ∧
      Truncates (toSigned (2 * w) (s.cpu.pair w)) (toSigned w (s.decinfo.operand .dest).val.toNat)
        (toSigned w (s'.cpu.low w)) (toSigned w (s'.cpu.high w)) ∧
      ∀ a, ¬ InPair w a → s'.cpu.image a = s.cpu.image a) ↔
    IdivExact w (toSigned (2 * w) (s.cpu.pair w))
      (toSigned w (s.decinfo.operand .dest).val.toNat) := by
  have hzero : (s.decinfo.operand .dest).val ≠ 0 := by
    intro hzero
    rw [hzero] at hne
    exact hne Int.zero_bmod
  have hfits : ¬ (w = 4 ∧ hostDividend s.cpu 4 = -2 ^ 63 ∧
      hostDivisor 4 (s.decinfo.operand .dest).val = -1) := by
    rintro ⟨rfl, hdividend, hdivisor⟩
    rw [hostDividend, if_neg (by decide)] at hdividend
    rw [hostDivisor, if_pos rfl] at hdivisor
    rw [hdividend, hdivisor] at hhigh
    exact absurd hhigh (by decide)
  rcases execIdiv_spec hw hdest hval hzero hfits with ⟨⟨⟩, s', hrun, hleaves⟩
  have hpos := hw.bounds.1
  have hrem := tmod_range hpos (toSigned (2 * w) (s.cpu.pair w)) hne
  rw [← tdiv_host_iff hw hval hne hlow hhigh, ← bmod_eq_iff_modEq hpos hlow hhigh,
    ← bmod_eq_iff_modEq hpos hrem.1 hrem.2, ← hleaves.low, ← hleaves.high, ← truncates_iff hne]
  constructor
  · rintro ⟨t, ht, htruncates, -⟩
    rw [hrun] at ht
    cases ht
    exact htruncates
  · exact fun h => ⟨s', hrun, h, hleaves.others⟩

/-- 100 divided by -10 in a byte. -/
theorem execIdiv_euclid_iff_minusTen :
    (∃ s', execIdiv (operandMachine 1 246 (.const 100)) = .ok ⟨⟩ s' ∧
      Truncates (toSigned (2 * 1) ((CPUState.const 100).pair 1)) (toSigned 1 (246 : Word).toNat)
        (toSigned 1 (s'.cpu.low 1)) (toSigned 1 (s'.cpu.high 1)) ∧
      ∀ a, ¬ InPair 1 a → s'.cpu.image a = (CPUState.const 100).image a) ↔
    IdivExact 1 (toSigned (2 * 1) ((CPUState.const 100).pair 1)) (toSigned 1 (246 : Word).toNat) :=
  execIdiv_euclid_iff (Or.inl rfl) rfl (by decide) (by decide) (by decide) (by decide)

/-- `idiv` leaves the quotient 0 and the remainder 100 for 100 divided by -10. -/
theorem execIdiv_inexact :
    ¬ ∀ (s : Machine) (w : Nat), ValidWidth w → (s.decinfo.operand .dest).width = w →
      (s.decinfo.operand .dest).val.toNat < 2 ^ (8 * w) →
      toSigned w (s.decinfo.operand .dest).val.toNat ≠ 0 →
      -2 ^ (8 * w - 1) ≤
        (toSigned (2 * w) (s.cpu.pair w)).tdiv (toSigned w (s.decinfo.operand .dest).val.toNat) →
      (toSigned (2 * w) (s.cpu.pair w)).tdiv (toSigned w (s.decinfo.operand .dest).val.toNat) <
        2 ^ (8 * w - 1) →
      ∃ s', execIdiv s = .ok ⟨⟩ s' ∧
        Truncates (toSigned (2 * w) (s.cpu.pair w)) (toSigned w (s.decinfo.operand .dest).val.toNat)
          (toSigned w (s'.cpu.low w)) (toSigned w (s'.cpu.high w)) ∧
        ∀ a, ¬ InPair w a → s'.cpu.image a = s.cpu.image a := by
  intro h
  rcases h (operandMachine 1 246 (.const 100)) 1 (Or.inl rfl) rfl (by decide) (by decide)
    (by decide) (by decide) with ⟨s', hrun, ⟨-, hrem, -⟩, -⟩
  have hhigh : (final (execIdiv (operandMachine 1 246 (.const 100)))).cpu.high 1 = 100 := by decide
  rw [hrun, final_ok] at hhigh
  rw [hhigh] at hrem
  exact absurd hrem (by decide)

end Nemu
