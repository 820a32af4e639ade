import Mathlib.Algebra.Group.Nat.Defs
import Mathlib.Tactic.Common

/-!
# Little-endian words in byte memories

A byte memory is a function from indices to bytes.  This file gives the two accesses a
little-endian machine performs on it:

- `load f off n`  : the `n` bytes from `off` on, least significant first, zero-extended to 32 bits
- `store f off n` : the low `n` bytes of a word written from `off` on

and the laws relating them.  Everything is reduced to single bits (`getLsbD_load`) or single
bytes (`byteOf_load`, `store_apply`).
-/

namespace LittleEndian

/-! ## Bytes of a word -/

/-- Byte `k` of a word, byte 0 being the least significant one. -/
def byteOf {w : Nat} (x : BitVec w) (k : Nat) : BitVec 8 :=
  x.extractLsb' (8 * k) 8

theorem getLsbD_byteOf {w : Nat} (x : BitVec w) (k j : Nat) :
    (byteOf x k).getLsbD j = (decide (j < 8) && x.getLsbD (8 * k + j)) := by
  simp [byteOf]

/-- A 32-bit word is determined by its four bytes. -/
theorem eq_of_byteOf {x y : BitVec 32} (h : ∀ k < 4, byteOf x k = byteOf y k) : x = y := by
  apply BitVec.eq_of_getLsbD_eq
  intro i hi
  have hk : i / 8 < 4 := by omega
  have hbit := congrArg (fun b => b.getLsbD (i % 8)) (h (i / 8) hk)
  have hlt : i % 8 < 8 := Nat.mod_lt _ (by decide)
  have hidx : 8 * (i / 8) + i % 8 = i := by omega
  simpa only [getLsbD_byteOf, hlt, hidx, decide_true, Bool.true_and] using hbit

/-! ## Loads -/

/-- The `n` bytes from `off` on, least significant first, in a 32-bit word. -/
def load (f : Nat → BitVec 8) (off : Nat) : Nat → BitVec 32
  | 0 => 0
  | n + 1 => (f off).setWidth 32 ||| (load f (off + 1) n <<< 8)

theorem getLsbD_load (f : Nat → BitVec 8) (off n j : Nat) :
    (load f off n).getLsbD j =
      (decide (j < 32) && decide (j < 8 * n) && (f (off + j / 8)).getLsbD (j % 8)) := by
  induction n generalizing off j with
  | zero =>
      simp [load]
  | succ n ih =>
      by_cases hlow : j < 8
      · have hdiv : j / 8 = 0 := Nat.div_eq_of_lt hlow
        have hmod : j % 8 = j := Nat.mod_eq_of_lt hlow
        have h32 : j < 32 := by omega
        have hn : j < 8 * (n + 1) := by omega
        simp [load, hlow, hdiv, hmod, h32, hn]
      · -- the bit lies in the tail, shifted up by one byte
        have hge : 8 ≤ j := by omega
        have hout : (f off).getLsbD j = false := BitVec.getLsbD_of_ge _ _ hge
        have hdiv : off + 1 + (j - 8) / 8 = off + j / 8 := by omega
        have hmod : (j - 8) % 8 = j % 8 := by omega
        have hlen : (j - 8 < 8 * n) ↔ (j < 8 * (n + 1)) := by omega
        by_cases h32 : j < 32
        · have h24 : j - 8 < 32 := by omega
          simp only [load, BitVec.getLsbD_or, BitVec.getLsbD_setWidth, hout, Bool.and_false,
            Bool.false_or, BitVec.getLsbD_shiftLeft, ih, hdiv, hmod, h24, hlen, h32, hlow,
            decide_true, decide_false, Bool.not_false, Bool.true_and]
        · simp [load, h32, hout]

theorem byteOf_load (f : Nat → BitVec 8) (off n k : Nat) (hk : k < 4) :
    byteOf (load f off n) k = if k < n then f (off + k) else 0 := by
  apply BitVec.eq_of_getLsbD_eq
  intro j hj
  have h32 : 8 * k + j < 32 := by omega
  have hdiv : (8 * k + j) / 8 = k := by omega
  have hmod : (8 * k + j) % 8 = j := by omega
  have hn : (8 * k + j < 8 * n) ↔ k < n := by omega
  by_cases hkn : k < n
  · simp only [getLsbD_byteOf, getLsbD_load, hj, h32, hdiv, hmod, hn, hkn, decide_true,
      Bool.true_and, if_true]
  · rw [if_neg hkn, getLsbD_byteOf, getLsbD_load, decide_eq_false (mt hn.mp hkn)]
    simp

/-- Memories with the same bytes at the two places. -/
theorem load_shift {f g : Nat → BitVec 8} {off off' n : Nat}
    (h : ∀ i < n, f (off + i) = g (off' + i)) : load f off n = load g off' n := by
  induction n generalizing off off' with
  | zero => rfl
  | succ n ih =>
      have hrest : ∀ i < n, f (off + 1 + i) = g (off' + 1 + i) := by
        intro i hi
        have hstep := h (i + 1) (by omega)
        rwa [Nat.add_comm i 1, ← Nat.add_assoc, ← Nat.add_assoc] at hstep
      have hfirst := h 0 (by omega)
      rw [Nat.add_zero, Nat.add_zero] at hfirst
      rw [load, load, hfirst, ih hrest]

@[simp] theorem load_one (f : Nat → BitVec 8) (off : Nat) :
    load f off 1 = (f off).setWidth 32 := by
  simp [load]

/-- Masking a four-byte load down to `len` bytes is the `len`-byte load. -/
theorem load_four_and_mask (f : Nat → BitVec 8) (off len : Nat) (hlen : len ≤ 4) :
    load f off 4 &&& (BitVec.allOnes 32 >>> ((4 - len) <<< 3)) = load f off len := by
  apply BitVec.eq_of_getLsbD_eq
  intro j hj
  have hshift : (4 - len) <<< 3 = 8 * (4 - len) := by
    rw [Nat.shiftLeft_eq]
    omega
  have hmask : (8 * (4 - len) + j < 32) ↔ j < 8 * len := by omega
  simp only [BitVec.getLsbD_and, getLsbD_load, hshift, BitVec.getLsbD_ushiftRight,
    BitVec.getLsbD_allOnes, hmask, hj, decide_true, Bool.true_and]
  cases decide (j < 8 * len) <;> simp

/-! ## Stores -/

/-- The low `n` bytes of `d` written from `off` on. -/
def store (f : Nat → BitVec 8) (off n : Nat) (d : BitVec 32) : Nat → BitVec 8 :=
  fun i => if off ≤ i ∧ i < off + n then byteOf d (i - off) else f i

theorem store_apply (f : Nat → BitVec 8) (off n : Nat) (d : BitVec 32) (i : Nat) :
    store f off n d i = if off ≤ i ∧ i < off + n then byteOf d (i - off) else f i := rfl

theorem store_of_lt {f : Nat → BitVec 8} {off n : Nat} {d : BitVec 32} {i : Nat} (h : i < off) :
    store f off n d i = f i := by
  have hnot : ¬ (off ≤ i ∧ i < off + n) := by omega
  simp [store, hnot]

/-- A whole word is read back. -/
theorem load_store (f : Nat → BitVec 8) (off : Nat) (d : BitVec 32) :
    load (store f off 4 d) off 4 = d := by
  refine eq_of_byteOf fun k hk => ?_
  rw [byteOf_load _ _ _ _ hk, if_pos hk, store_apply, if_pos (by omega), Nat.add_sub_cancel_left]

/-- A word stored as it was read changes nothing. -/
theorem store_load (f : Nat → BitVec 8) (off : Nat) : store f off 4 (load f off 4) = f := by
  funext i
  rw [store_apply]
  by_cases h : off ≤ i ∧ i < off + 4
  · have hidx : off + (i - off) = i := by omega
    rw [if_pos h, byteOf_load _ _ _ _ (by omega), if_pos (by omega), hidx]
  · rw [if_neg h]

/-- Bytes of a store are read back. -/
theorem load_store_within (f : Nat → BitVec 8) (off : Nat) (d : BitVec 32) {k m n : Nat}
    (h : k + m ≤ n) : load (store f off n d) (off + k) m = load (byteOf d) k m :=
  load_shift fun i hi => by
    have hidx : off + k + i - off = k + i := by omega
    rw [store_apply, if_pos (by omega), hidx]

theorem load_store_of_disjoint (f : Nat → BitVec 8) (d : BitVec 32) {off n off' n' : Nat}
    (h : off' + n' ≤ off ∨ off + n ≤ off') :
    load (store f off n d) off' n' = load f off' n' :=
  load_shift fun i hi => by rw [store_apply, if_neg (by omega)]

/-! ## Loads as numbers -/

theorem toNat_load_lt (f : Nat → BitVec 8) (off n : Nat) : (load f off n).toNat < 2 ^ (8 * n) := by
  refine Nat.lt_pow_two_of_testBit _ fun i hi => ?_
  have hout : ¬ i < 8 * n := by omega
  rw [BitVec.testBit_toNat, getLsbD_load, decide_eq_false hout, Bool.and_false, Bool.false_and]

theorem toNat_load_succ (f : Nat → BitVec 8) (off : Nat) {n : Nat} (hn : n < 4) :
    (load f off (n + 1)).toNat = (f off).toNat + 2 ^ 8 * (load f (off + 1) n).toNat := by
  have hbyte : (f off).toNat < 2 ^ 8 := (f off).isLt
  have hrest := toNat_load_lt f (off + 1) n
  -- the rest has a byte to spare in the word
  have hpow : 2 ^ (8 * n) ≤ 2 ^ 24 := Nat.pow_le_pow_right (by decide) (by omega)
  have hshift : 2 ^ 8 * (load f (off + 1) n).toNat < 2 ^ 32 := by omega
  rw [load, BitVec.toNat_or, BitVec.toNat_setWidth, BitVec.toNat_shiftLeft, Nat.shiftLeft_eq,
    Nat.mul_comm _ (2 ^ 8), Nat.mod_eq_of_lt (by omega), Nat.mod_eq_of_lt hshift, Nat.or_comm,
    ← Nat.two_pow_add_eq_or_of_lt hbyte, Nat.add_comm]

/-- The `m` bytes of a word from byte `k` on. -/
theorem toNat_load_byteOf (d : BitVec 32) {k m : Nat} (h : k + m ≤ 4) :
    (load (byteOf d) k m).toNat = d.toNat / 2 ^ (8 * k) % 2 ^ (8 * m) := by
  refine Nat.eq_of_testBit_eq fun i => ?_
  have hidx : 8 * (k + i / 8) + i % 8 = 8 * k + i := by omega
  have hmod : i % 8 < 8 := Nat.mod_lt _ (by decide)
  rw [BitVec.testBit_toNat, getLsbD_load, getLsbD_byteOf, hidx, Nat.testBit_mod_two_pow,
    Nat.testBit_div_two_pow, BitVec.testBit_toNat, decide_eq_true hmod, Bool.true_and,
    Nat.add_comm i]
  by_cases hi : i < 8 * m
  · have h32 : i < 32 := by omega
    rw [decide_eq_true h32, Bool.true_and]
  · rw [decide_eq_false hi, Bool.and_false, Bool.false_and]

/-! ## Lists of bytes -/

/-- The bytes of `l` stand from `off` on. -/
def Holds (f : Nat → BitVec 8) (off : Nat) (l : List (BitVec 8)) : Prop :=
  ∀ i (h : i < l.length), f (off + i) = l[i]

theorem Holds.append {f : Nat → BitVec 8} {off : Nat} {l m : List (BitVec 8)}
    (h : Holds f off (l ++ m)) : Holds f off l ∧ Holds f (off + l.length) m := by
  constructor
  · intro i hi
    have hbyte := h i (by rw [List.length_append]; omega)
    rwa [List.getElem_append_left hi] at hbyte
  · intro i hi
    have hbyte := h (l.length + i) (by rw [List.length_append]; omega)
    rw [List.getElem_append_right (Nat.le_add_right _ _)] at hbyte
    simpa [Nat.add_assoc] using hbyte

theorem Holds.cons {f : Nat → BitVec 8} {off : Nat} {b : BitVec 8} {l : List (BitVec 8)}
    (h : Holds f off (b :: l)) : f off = b ∧ Holds f (off + 1) l :=
  ⟨h 0 (by simp), (Holds.append (l := [b]) h).2⟩

/-- The low `n` bytes of a word, least significant first. -/
def bytesOf (v : BitVec 32) (n : Nat) : List (BitVec 8) := (List.range n).map (byteOf v)

@[simp] theorem length_bytesOf (v : BitVec 32) (n : Nat) : (bytesOf v n).length = n := by
  simp [bytesOf]

theorem Holds.append_of {f : Nat → BitVec 8} {off : Nat} {l m : List (BitVec 8)}
    (hl : Holds f off l) (hm : Holds f (off + l.length) m) : Holds f off (l ++ m) := by
  intro i hi
  rw [List.length_append] at hi
  by_cases hlow : i < l.length
  · rw [List.getElem_append_left hlow]
    exact hl i hlow
  · rw [List.getElem_append_right (by omega), ← hm (i - l.length) (by omega)]
    congr 1
    omega

theorem holds_nil (f : Nat → BitVec 8) (off : Nat) : Holds f off [] :=
  fun i hi => absurd hi (Nat.not_lt_zero i)

theorem holds_singleton (f : Nat → BitVec 8) (off : Nat) : Holds f off [f off] := by
  intro i hi
  have hzero : i = 0 := Nat.lt_one_iff.1 hi
  subst hzero
  rfl

/-- The bytes of the word that is found in memory are found there. -/
theorem holds_bytesOf_load (f : Nat → BitVec 8) (off : Nat) {n : Nat} (hn : n ≤ 4) :
    Holds f off (bytesOf (load f off 4) n) := by
  intro i hi
  rw [length_bytesOf] at hi
  have hbyte := byteOf_load f off 4 i (by omega)
  rw [if_pos (by omega)] at hbyte
  rw [← hbyte]
  simp [bytesOf]

theorem Holds.byteOf_load {f : Nat → BitVec 8} {off n : Nat} {v : BitVec 32}
    (h : Holds f off (bytesOf v n)) (hn : n ≤ 4) {k : Nat} (hk : k < n) :
    byteOf (load f off n) k = byteOf v k := by
  have hbyte := h k (by rwa [length_bytesOf])
  rw [LittleEndian.byteOf_load _ _ _ _ (Nat.lt_of_lt_of_le hk hn), if_pos hk, hbyte]
  simp [bytesOf]

theorem Holds.load_four {f : Nat → BitVec 8} {off : Nat} {v : BitVec 32}
    (h : Holds f off (bytesOf v 4)) : load f off 4 = v :=
  eq_of_byteOf fun _ hk => h.byteOf_load (Nat.le_refl 4) hk

/-! ## Parts of a word -/

/-- The word `w` with the low `n` bytes of `v` written over its bytes from `k` on. -/
def insert (w : BitVec 32) (k n : Nat) (v : BitVec 32) : BitVec 32 :=
  load (store (byteOf w) k n v) 0 4

theorem byteOf_insert (w v : BitVec 32) (k n : Nat) {j : Nat} (hj : j < 4) :
    byteOf (insert w k n v) j = if k ≤ j ∧ j < k + n then byteOf v (j - k) else byteOf w j := by
  rw [insert, byteOf_load _ _ _ _ hj, if_pos hj, Nat.zero_add, store_apply]

end LittleEndian
