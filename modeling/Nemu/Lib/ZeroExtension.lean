import Mathlib.Algebra.Order.Ring.Int
import Mathlib.Data.Int.ModEq
import Mathlib.Tactic.Linarith
import Mathlib.Tactic.Ring

/-!
# Signed arithmetic on zero-extended operands

A number in two's complement with the modulus `2 * H` is read as itself below `H` and as itself
less `2 * H` from there on.  The results here say when an unsigned product, or a truncated
quotient, of the zero-extended numbers is the one of the signed numbers.
-/

namespace ZeroExtension

/-- The signed reading of a number below `2 * H`. -/
def signed (H n : Int) : Int := if n < H then n else n - 2 * H

/-! ## Products -/

section Products

variable {H v a : Int}

/-- One operand is negative: the products differ by a multiple of the modulus. -/
theorem signed_mul_one_negative (hv : 0 ≤ v ∧ v < H) :
    signed (2 * H * H) (v * a) = v * (a - 2 * H) ↔ v = 0 := by
  have hH : 0 < H := by omega
  have hsquare : 0 < H * H := mul_pos hH hH
  constructor
  · intro h
    unfold signed at h
    by_cases hsmall : v * a < 2 * H * H
    · rw [if_pos hsmall] at h
      have hzero : 2 * H * v = 0 := by linarith
      exact (mul_eq_zero.1 hzero).resolve_left (by omega)
    · -- the two would be a whole square apart
      rw [if_neg hsmall] at h
      have hzero : H * (2 * H - v) = 0 := by linarith
      have hsub : 2 * H - v = 0 := (mul_eq_zero.1 hzero).resolve_left (by omega)
      omega
  · rintro rfl
    rw [signed, if_pos (by linarith)]
    ring

theorem signed_mul_both_negative (hv : H ≤ v ∧ v < 2 * H) (ha : H ≤ a ∧ a < 2 * H) :
    signed (2 * H * H) (v * a) = (v - 2 * H) * (a - 2 * H) ↔ v = H ∧ a = H := by
  have hH : 0 < H := by omega
  constructor
  · intro h
    unfold signed at h
    by_cases hsmall : v * a < 2 * H * H
    · rw [if_pos hsmall] at h
      have hzero : H * (2 * H - (v + a)) = 0 := by linarith
      have hsub := (mul_eq_zero.1 hzero).resolve_left (by omega)
      omega
    · rw [if_neg hsmall] at h
      have hzero : H * (4 * H - (v + a)) = 0 := by linarith
      have hsub := (mul_eq_zero.1 hzero).resolve_left (by omega)
      omega
  · rintro ⟨hvH, haH⟩
    have hsquare : 0 < H * H := mul_pos hH hH
    rw [hvH, haH, signed, if_pos (by linarith)]
    ring

/-- The product of two zero-extended numbers, read with the square of their modulus. -/
theorem signed_mul_iff (hv : 0 ≤ v ∧ v < 2 * H) (ha : 0 ≤ a ∧ a < 2 * H) :
    signed (2 * H * H) (v * a) = signed H v * signed H a ↔
      (0 ≤ signed H a ∧ 0 ≤ signed H v) ∨ signed H a = 0 ∨ signed H v = 0 ∨
        (signed H a = -H ∧ signed H v = -H) := by
  by_cases hvH : v < H
  · have hsv : signed H v = v := if_pos hvH
    by_cases haH : a < H
    · have hsa : signed H a = a := if_pos haH
      have hsmall : v * a < 2 * H * H := by nlinarith
      rw [hsv, hsa, signed, if_pos hsmall]
      exact iff_of_true rfl (Or.inl ⟨ha.1, hv.1⟩)
    · have hsa : signed H a = a - 2 * H := if_neg haH
      rw [hsv, hsa, signed_mul_one_negative ⟨hv.1, hvH⟩]
      omega
  · have hsv : signed H v = v - 2 * H := if_neg hvH
    by_cases haH : a < H
    · have hsa : signed H a = a := if_pos haH
      rw [hsv, hsa, mul_comm v, mul_comm (v - 2 * H), signed_mul_one_negative ⟨ha.1, haH⟩]
      omega
    · have hsa : signed H a = a - 2 * H := if_neg haH
      rw [hsv, hsa, signed_mul_both_negative ⟨by omega, hv.2⟩ ⟨by omega, ha.2⟩]
      omega

end Products

/-! ## Truncated division -/

section Truncated

variable {D v q r : Int}

/-- A quotient rounded towards zero and a remainder with the sign of the dividend. -/
def Truncates (D v q r : Int) : Prop := D = q * v + r ∧ |r| < |v| ∧ (r = 0 ∨ r.sign = D.sign)

theorem Truncates.neg (h : Truncates D v q r) : Truncates (-D) v (-q) (-r) := by
  rcases h with ⟨hD, hr, hsign⟩
  refine ⟨by rw [hD]; ring, by rwa [abs_neg], ?_⟩
  rw [Int.sign_neg, Int.sign_neg, neg_eq_zero, neg_inj]
  exact hsign

theorem truncates_of_nonneg (hv : v ≠ 0) (hD : 0 ≤ D) :
    Truncates D v q r ↔ q = D.tdiv v ∧ r = D.tmod v := by
  rw [Int.tdiv_eq_ediv_of_nonneg hD, Int.tmod_eq_emod_of_nonneg hD]
  constructor
  · rintro ⟨heq, hlt, hsign⟩
    have hr : 0 ≤ r := by
      rcases hsign with h | h
      · omega
      · rw [← Int.sign_nonneg_iff, h]
        exact Int.sign_nonneg_iff.2 hD
    rw [abs_of_nonneg hr] at hlt
    have hsum : r + v * q = D := by rw [heq]; ring
    rcases lt_or_gt_of_ne hv with hneg | hpos
    · rw [abs_of_neg hneg] at hlt
      have hunique := (Int.ediv_emod_unique' hneg).2 ⟨hsum, hr, hlt⟩
      exact ⟨hunique.1.symm, hunique.2.symm⟩
    · rw [abs_of_pos hpos] at hlt
      have hunique := (Int.ediv_emod_unique hpos).2 ⟨hsum, hr, hlt⟩
      exact ⟨hunique.1.symm, hunique.2.symm⟩
  · rintro ⟨rfl, rfl⟩
    have hr := Int.emod_nonneg D hv
    refine ⟨by rw [mul_comm]; exact (Int.mul_ediv_add_emod D v).symm, ?_, ?_⟩
    · rw [abs_of_nonneg hr]
      exact Int.emod_lt_abs D hv
    · rcases eq_or_lt_of_le hD with hzero | hpos
      · left
        rw [← hzero, Int.zero_emod]
      · rcases eq_or_lt_of_le hr with hzero | hrpos
        · exact Or.inl hzero.symm
        · right
          rw [Int.sign_eq_one_of_pos hrpos, Int.sign_eq_one_of_pos hpos]

theorem truncates_iff (hv : v ≠ 0) : Truncates D v q r ↔ q = D.tdiv v ∧ r = D.tmod v := by
  rcases Int.lt_or_le D 0 with hneg | hD
  · have hflip : Truncates D v q r ↔ Truncates (-D) v (-q) (-r) :=
      ⟨Truncates.neg, fun h => by simpa using h.neg⟩
    rw [hflip, truncates_of_nonneg hv (by omega), Int.neg_tdiv, Int.neg_tmod, neg_inj, neg_inj]
  · exact truncates_of_nonneg hv hD

end Truncated

/-! ## Divisions by a negative number -/

section Negative

variable {H d m : Int}

/-- Numbers that are congruent and less than a modulus apart are equal. -/
theorem eq_of_modEq {M x y : Int} (h : x ≡ y [ZMOD M]) (hlt : x - y < M) (hgt : -M < x - y) :
    x = y := by
  rcases Int.modEq_iff_dvd.1 h.symm with ⟨k, hk⟩
  have hk0 : k = 0 := by
    have hlow : -1 < k := by nlinarith
    have hhigh : k < 1 := by nlinarith
    omega
  rw [hk0, mul_zero] at hk
  omega

/-- What is known of a quotient and a remainder. -/
structure Divides (d m q r : Int) : Prop where
  eq : d = m * q + r
  quot : 0 ≤ q
  rem : 0 ≤ r
  lt : r < m

theorem divides_ediv (hd : 0 ≤ d) (hm : 0 < m) : Divides d m (d / m) (d % m) where
  eq := (Int.mul_ediv_add_emod d m).symm
  quot := Int.ediv_nonneg hd (by omega)
  rem := Int.emod_nonneg d (by omega)
  lt := Int.emod_lt_of_pos d hm

/-- A larger divisor has a smaller quotient. -/
theorem Divides.quot_le {n p q r t : Int} (h : Divides d m q r) (h' : Divides d n p t)
    (hmn : m ≤ n) : p ≤ q := by
  by_contra hgt
  have hq := h.eq
  have hp := h'.eq
  have hrem := h'.rem
  have hlt := h.lt
  have hquot := h.quot
  have hstep : m * (q + 1) ≤ n * p := by nlinarith [h.rem]
  nlinarith

/-- The divisor `-m` is `2 * H - m` when it is zero-extended.  The quotients differ in sign, so
they have to be zero or `H`, which is its own negative. -/
theorem nonneg_div_modEq_iff (hm : 1 ≤ m ∧ m ≤ H) (hd : 0 ≤ d) (hfits : d / m ≤ H) :
    (d / (2 * H - m) ≡ -(d / m) [ZMOD 2 * H] ∧ d % (2 * H - m) ≡ d % m [ZMOD 2 * H]) ↔
      d < m ∨ (m = H ∧ H * H ≤ d) := by
  have hdiv := divides_ediv hd (show 0 < m by omega)
  have hwide := divides_ediv hd (show 0 < 2 * H - m by omega)
  have hle := hdiv.quot_le hwide (by omega)
  constructor
  · rintro ⟨hquot, hrem⟩
    have hrems := eq_of_modEq hrem (by have h₁ := hwide.lt; have h₂ := hdiv.rem; omega)
      (by have h₁ := hwide.rem; have h₂ := hdiv.lt; omega)
    rcases Int.modEq_iff_dvd.1 hquot.symm with ⟨k, hk⟩
    have hk0 : 0 ≤ k := by nlinarith [hdiv.quot, hwide.quot]
    have hk1 : k ≤ 1 := by nlinarith [hdiv.quot, hwide.quot]
    have heq := hdiv.eq
    have heq' := hwide.eq
    rcases (show k = 0 ∨ k = 1 by omega) with rfl | rfl
    · left
      have hzero : d / m = 0 := by
        have h₁ := hdiv.quot
        have h₂ := hwide.quot
        omega
      rw [hzero, mul_zero, zero_add] at heq
      exact heq ▸ hdiv.lt
    · -- both quotients are `H`, so that the divisors are equal
      right
      have hQ : d / m = H := by omega
      have hP : d / (2 * H - m) = H := by omega
      rw [hQ] at heq
      rw [hP, hrems] at heq'
      have hmul : (m - (2 * H - m)) * H = 0 := by linarith
      have hsub := (mul_eq_zero.1 hmul).resolve_right (by omega)
      have hmH : m = H := by omega
      refine ⟨hmH, ?_⟩
      rw [hmH] at heq
      have hrem0 := hdiv.rem
      rw [hmH] at hrem0
      linarith
  · rintro (hlt | ⟨rfl, hsquare⟩)
    · rw [Int.ediv_eq_zero_of_lt hd hlt, Int.emod_eq_of_lt hd hlt,
        Int.ediv_eq_zero_of_lt hd (by omega), Int.emod_eq_of_lt hd (by omega), neg_zero]
      exact ⟨rfl, rfl⟩
    · have hsame : 2 * m - m = m := by ring
      have hquot : d / m = m := le_antisymm hfits (Int.le_ediv_of_mul_le (by omega) hsquare)
      rw [hsame, hquot]
      exact ⟨Int.modEq_iff_dvd.2 ⟨-1, by ring⟩, rfl⟩

/-- For a negative dividend the quotients have to be zero. -/
theorem neg_div_modEq_iff (hm : 1 ≤ m ∧ m ≤ H) (hd : 0 ≤ d) (hfits : d / m < H) :
    (-(d / (2 * H - m)) ≡ d / m [ZMOD 2 * H] ∧ -(d % (2 * H - m)) ≡ -(d % m) [ZMOD 2 * H]) ↔
      d < m := by
  have hdiv := divides_ediv hd (show 0 < m by omega)
  have hwide := divides_ediv hd (show 0 < 2 * H - m by omega)
  have hle := hdiv.quot_le hwide (by omega)
  constructor
  · rintro ⟨hquot, -⟩
    have hq := hdiv.quot
    have hp := hwide.quot
    have hquots := eq_of_modEq hquot (by omega) (by omega)
    have hzero : d / m = 0 := by omega
    have heq := hdiv.eq
    rw [hzero, mul_zero, zero_add] at heq
    exact heq ▸ hdiv.lt
  · intro hlt
    rw [Int.ediv_eq_zero_of_lt hd hlt, Int.emod_eq_of_lt hd hlt,
      Int.ediv_eq_zero_of_lt hd (by omega), Int.emod_eq_of_lt hd (by omega), neg_zero]
    exact ⟨rfl, rfl⟩

/-- The dividend `-d` is `4 * H * H - d` when it is zero-extended, the divisor is positive. -/
theorem zeroExtended_div_pos_iff {v : Int} (hv : 0 < v ∧ v < H) (hd : 0 ≤ d)
    (hlt : d < 4 * H * H) :
    ((4 * H * H - d) / v ≡ -(d / v) [ZMOD 2 * H] ∧
        (4 * H * H - d) % v ≡ -(d % v) [ZMOD 2 * H]) ↔ v ∣ 2 * H ∧ v ∣ d := by
  have hdiv := divides_ediv hd hv.1
  have hwide := divides_ediv (show 0 ≤ 4 * H * H - d by omega) hv.1
  constructor
  · rintro ⟨hquot, hrem⟩
    have h₁ := hdiv.rem
    have h₂ := hdiv.lt
    have h₃ := hwide.rem
    have h₄ := hwide.lt
    have hrems := eq_of_modEq hrem (by omega) (by omega)
    have hzero : d % v = 0 := by omega
    have hzero' : (4 * H * H - d) % v = 0 := by omega
    rcases Int.modEq_iff_dvd.1 hquot.symm with ⟨k, hk⟩
    have heq := hdiv.eq
    have heq' := hwide.eq
    refine ⟨⟨k, ?_⟩, Int.dvd_of_emod_eq_zero hzero⟩
    rw [hzero] at heq
    rw [hzero'] at heq'
    have hmul : 2 * H * (2 * H - v * k) = 0 := by
      have hquots : (4 * H * H - d) / v = 2 * H * k - d / v := by linarith
      rw [hquots] at heq'
      linarith
    have hsub := (mul_eq_zero.1 hmul).resolve_left (by omega)
    omega
  · rintro ⟨⟨k, hk⟩, ⟨q, rfl⟩⟩
    have hne : v ≠ 0 := by omega
    have hprod : 4 * H * H - v * q = v * (2 * H * k - q) := by
      calc 4 * H * H - v * q = 2 * H * (2 * H) - v * q := by ring
        _ = 2 * H * (v * k) - v * q := by rw [hk]
        _ = v * (2 * H * k - q) := by ring
    rw [hprod, Int.mul_ediv_cancel_left _ hne, Int.mul_ediv_cancel_left _ hne, Int.mul_emod_right,
      Int.mul_emod_right, neg_zero]
    exact ⟨Int.modEq_iff_dvd.2 ⟨-k, by ring⟩, rfl⟩

/-- Dividend and divisor are negative. -/
theorem zeroExtended_div_neg_iff (hm : 1 ≤ m ∧ m ≤ H) (hd : 0 < d) (hlt : d < 4 * H * H)
    (hfits : d / m < H) :
    ((4 * H * H - d) / (2 * H - m) ≡ d / m [ZMOD 2 * H] ∧
        (4 * H * H - d) % (2 * H - m) ≡ -(d % m) [ZMOD 2 * H]) ↔ d = m * m := by
  have hdiv := divides_ediv (show 0 ≤ d by omega) (show 0 < m by omega)
  have hwide := divides_ediv (show 0 ≤ 4 * H * H - d by omega) (show 0 < 2 * H - m by omega)
  constructor
  · rintro ⟨hquot, hrem⟩
    have h₁ := hdiv.rem
    have h₂ := hdiv.lt
    have h₃ := hwide.rem
    have h₄ := hwide.lt
    have hrems := eq_of_modEq hrem (by omega) (by omega)
    have hzero : d % m = 0 := by omega
    have hzero' : (4 * H * H - d) % (2 * H - m) = 0 := by omega
    rcases Int.modEq_iff_dvd.1 hquot.symm with ⟨k, hk⟩
    have heq := hdiv.eq
    have heq' := hwide.eq
    have hquots : (4 * H * H - d) / (2 * H - m) = d / m + 2 * H * k := by linarith
    rw [hzero, add_zero] at heq
    rw [hzero', hquots] at heq'
    have hQ : 0 < d / m := by nlinarith [hdiv.quot]
    have hmul : 2 * H * (2 * H - d / m - (2 * H - m) * k) = 0 := by linarith
    have hsub := (mul_eq_zero.1 hmul).resolve_left (by omega)
    -- the factor can only be 1
    have hk0 : 0 < k := by nlinarith
    have hk2 : k < 2 := by nlinarith
    have hk1 : k = 1 := by omega
    rw [hk1] at hsub
    have hQm : d / m = m := by linarith
    rw [hQm] at heq
    exact heq
  · rintro rfl
    have hne : m ≠ 0 := by omega
    have hne' : 2 * H - m ≠ 0 := by omega
    have hprod : 4 * H * H - m * m = (2 * H - m) * (2 * H + m) := by ring
    rw [hprod, Int.mul_ediv_cancel_left _ hne', Int.mul_ediv_cancel_left _ hne, Int.mul_emod_right,
      Int.mul_emod_right, neg_zero]
    exact ⟨Int.modEq_iff_dvd.2 ⟨-1, by ring⟩, rfl⟩

end Negative

/-! ## Zero-extended operands -/

section Extended

variable {H D v : Int}

/-- What a negative number becomes when its sign is not extended. -/
def extended (H v : Int) : Int := if 0 ≤ v then v else v + 2 * H

theorem extended_signed {n : Int} (hn : 0 ≤ n ∧ n < 2 * H) : extended H (signed H n) = n := by
  unfold extended signed
  by_cases hlow : n < H
  · rw [if_pos hlow, if_pos hn.1]
  · rw [if_neg hlow, if_neg (by omega)]
    omega

theorem tdiv_of_neg (hD : D < 0) : D.tdiv v = -(-D / v) ∧ D.tmod v = -(-D % v) := by
  have hpos : 0 ≤ -D := by omega
  rw [← Int.tdiv_eq_ediv_of_nonneg hpos, ← Int.tmod_eq_emod_of_nonneg hpos, Int.neg_tdiv,
    Int.neg_tmod, neg_neg, neg_neg]
  exact ⟨rfl, rfl⟩

/-- When a division by a zero-extended divisor has the signed quotient and remainder. -/
theorem tdiv_extended_iff (hv : -H ≤ v ∧ v < H) (hne : v ≠ 0) (hlow : -H ≤ D.tdiv v)
    (hhigh : D.tdiv v < H) :
    (D.tdiv (extended H v) ≡ D.tdiv v [ZMOD 2 * H] ∧
        D.tmod (extended H v) ≡ D.tmod v [ZMOD 2 * H]) ↔
      0 < v ∨ |D| < |v| ∨ (v = -H ∧ H * H ≤ D) := by
  rcases lt_or_gt_of_ne hne with hneg | hpos
  · have hext : extended H v = 2 * H - -v := by
      rw [extended, if_neg (by omega)]
      ring
    have hm : 1 ≤ -v ∧ -v ≤ H := by omega
    rw [hext, abs_of_neg hneg]
    rcases Int.lt_or_le D 0 with hD | hD
    · have hquot : D.tdiv v = -D / -v := by
        rw [(tdiv_of_neg hD).1, Int.ediv_neg]
      have hrem : D.tmod v = -(-D % -v) := by
        rw [(tdiv_of_neg hD).2, Int.emod_neg]
      have hfits : -D / -v < H := by omega
      rw [hquot, hrem, (tdiv_of_neg hD).1, (tdiv_of_neg hD).2, abs_of_neg hD,
        neg_div_modEq_iff hm (by omega) hfits]
      have hsquare : 0 ≤ H * H := mul_self_nonneg H
      omega
    · have hquot : D.tdiv v = -(D / -v) := by
        rw [Int.tdiv_eq_ediv_of_nonneg hD, Int.ediv_neg, neg_neg]
      have hrem : D.tmod v = D % -v := by
        rw [Int.tmod_eq_emod_of_nonneg hD, Int.emod_neg]
      have hfits : D / -v ≤ H := by omega
      rw [hquot, hrem, Int.tdiv_eq_ediv_of_nonneg hD, Int.tmod_eq_emod_of_nonneg hD,
        abs_of_nonneg hD, nonneg_div_modEq_iff hm hD hfits]
      omega
  · rw [extended, if_pos (by omega)]
    exact iff_of_true ⟨rfl, rfl⟩ (Or.inl hpos)

/-- The same with a negative dividend that is zero-extended as well. -/
theorem extended_tdiv_extended_iff (hv : -H ≤ v ∧ v < H) (hne : v ≠ 0) (hD : D < 0)
    (hrange : -(4 * H * H) < D) (hhigh : D.tdiv v < H) :
    ((extended (2 * H * H) D).tdiv (extended H v) ≡ D.tdiv v [ZMOD 2 * H] ∧
        (extended (2 * H * H) D).tmod (extended H v) ≡ D.tmod v [ZMOD 2 * H]) ↔
      (0 < v ∧ v ∣ 2 * H ∧ v ∣ D) ∨ (v < 0 ∧ D = -(v * v)) := by
  have hdividend : extended (2 * H * H) D = 4 * H * H - -D := by
    rw [extended, if_neg (by omega)]
    ring
  have hnonneg : 0 ≤ 4 * H * H - -D := by omega
  rw [hdividend, Int.tdiv_eq_ediv_of_nonneg hnonneg, Int.tmod_eq_emod_of_nonneg hnonneg,
    (tdiv_of_neg hD).1, (tdiv_of_neg hD).2]
  rcases lt_or_gt_of_ne hne with hneg | hpos
  · have hext : extended H v = 2 * H - -v := by
      rw [extended, if_neg (by omega)]
      ring
    have hquot : -(-D / v) = -D / -v := by rw [Int.ediv_neg]
    have hrem : -D % v = -D % -v := by rw [Int.emod_neg]
    have hfits : -D / -v < H := by
      rw [← hquot, ← (tdiv_of_neg hD).1]
      exact hhigh
    rw [hext, hquot, hrem, zeroExtended_div_neg_iff (by omega) (by omega) (by omega) hfits, neg_mul_neg]
    omega
  · rw [extended, if_pos (by omega), zeroExtended_div_pos_iff ⟨hpos, hv.2⟩ (by omega) (by omega),
      Int.dvd_neg]
    omega

end Extended

end ZeroExtension
