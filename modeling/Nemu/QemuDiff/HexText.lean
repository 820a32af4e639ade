import Mathlib.Data.BitVec
import Mathlib.Data.Nat.Digits.Lemmas
import Nemu.QemuDiff.GdbHost

/-!
# The two directions of the hexadecimal text

What the client writes is plain lower-case text, and what it reads back from such text is the number
with the given bytes.
-/

namespace Nemu

/-! ## Digits -/

theorem digit_facts : ∀ n < 16, isxdigit (Hex.digit n) = true ∧
    hexNibble (Hex.digit n) = BitVec.ofNat 8 n ∧ hexEncode (BitVec.ofNat 8 n) = Hex.digit n := by
  decide

theorem upperDigit_facts : ∀ n < 16, isxdigit (Hex.upperDigit n) = true ∧
    hexNibble (Hex.upperDigit n) = BitVec.ofNat 8 n := by
  decide

/-- Two digits, of either case, read as their number. -/
theorem gdbDecodeHex_digits {x y : Byte} {m n : Nat} (hm : m < 16) (hn : n < 16)
    (hx : isxdigit x = true) (hy : isxdigit y = true) (hxm : hexNibble x = BitVec.ofNat 8 m)
    (hyn : hexNibble y = BitVec.ofNat 8 n) :
    gdbDecodeHex x y = BitVec.ofNat 16 (16 * m + n) := by
  rw [gdbDecodeHex, hx, hy, hxm, hyn]
  apply BitVec.eq_of_toNat_eq
  simp
  omega

theorem ofNat_halves (b : Byte) :
    BitVec.ofNat 16 (16 * (b.toNat / 16) + b.toNat % 16) = b.setWidth 16 := by
  rw [Nat.div_add_mod]
  apply BitVec.eq_of_toNat_eq
  simp

theorem gdbDecodeHex_ofByte (b : Byte) :
    gdbDecodeHex (Hex.digit (b.toNat / 16)) (Hex.digit (b.toNat % 16)) = b.setWidth 16 := by
  have hhigh := digit_facts _ (Hex.div_lt b)
  have hlow := digit_facts _ (Hex.mod_lt b)
  rw [gdbDecodeHex_digits (Hex.div_lt b) (Hex.mod_lt b) hhigh.1 hlow.1 hhigh.2.1 hlow.2.1,
    ofNat_halves]

theorem gdbDecodeHex_upperOfByte (b : Byte) :
    gdbDecodeHex (Hex.upperDigit (b.toNat / 16)) (Hex.upperDigit (b.toNat % 16)) =
      b.setWidth 16 := by
  have hhigh := upperDigit_facts _ (Hex.div_lt b)
  have hlow := upperDigit_facts _ (Hex.mod_lt b)
  rw [gdbDecodeHex_digits (Hex.div_lt b) (Hex.mod_lt b) hhigh.1 hlow.1 hhigh.2 hlow.2,
    ofNat_halves]

/-- The loop of `sprintf` writes plain hexadecimal text. -/
theorem hexDigits_eq (bytes : List Byte) : hexDigits bytes = Hex.ofBytes bytes := by
  have hbyte : ∀ b : Byte, [hexEncode (b >>> 4), hexEncode (b &&& 0xf)] = Hex.ofByte b := by
    intro b
    have hhigh : b >>> 4 = BitVec.ofNat 8 (b.toNat / 16) := by
      apply BitVec.eq_of_toNat_eq
      simp [Nat.shiftRight_eq_div_pow]
      omega
    have hlow : b &&& 0xf = BitVec.ofNat 8 (b.toNat % 16) := by
      apply BitVec.eq_of_toNat_eq
      have hmask := Nat.and_two_pow_sub_one_eq_mod b.toNat 4
      simp at hmask ⊢
      omega
    rw [hhigh, hlow, (digit_facts _ (Hex.div_lt b)).2.2, (digit_facts _ (Hex.mod_lt b)).2.2]
    rfl
  simp only [hexDigits, Hex.ofBytes, hbyte]

/-! ## The decoder -/

/-- The number with the given bytes, least significant first. -/
def bytesValue (l : List Byte) : Nat := Nat.ofDigits 256 (l.map BitVec.toNat)

theorem bytesValue_cons (b : Byte) (l : List Byte) :
    bytesValue (b :: l) = b.toNat + 256 * bytesValue l := by
  simp [bytesValue, Nat.ofDigits_cons]

/-- The invariant: what is left counts with the weight reached so far. -/
theorem decodeHexLoop_ofBytes (l rest : List Byte) (value weight : BitVec 64) :
    decodeHexLoop (Hex.ofBytes l ++ 0 :: rest) value weight =
      some (value + weight * BitVec.ofNat 64 (bytesValue l)) := by
  induction l generalizing value weight with
  | nil =>
      -- the terminator is no digit, so that the loop ends
      rw [Hex.ofBytes_nil, List.nil_append, decodeHexLoop.eq_def]
      simp only [show isxdigit 0 = false by decide]
      simp [bytesValue]
  | cons b l ih =>
      have hhigh := (digit_facts _ (Hex.div_lt b)).1
      have hlow := (digit_facts _ (Hex.mod_lt b)).1
      simp only [Hex.ofBytes_cons, List.cons_append, decodeHexLoop, hhigh, hlow, if_true, ih,
        gdbDecodeHex_ofByte, bytesValue_cons]
      have hb : (b.setWidth 16).setWidth 64 = BitVec.ofNat 64 b.toNat := by
        apply BitVec.eq_of_toNat_eq
        simp
      have hweight : BitVec.ofNat 64 256 = 16 * 16 := rfl
      -- one byte more has 256 times the weight
      rw [hb, BitVec.ofNat_add, BitVec.ofNat_mul, hweight]
      congr 1
      ring

theorem bytesValue_byte {l : List Byte} {k : Nat} (hk : k < l.length) :
    bytesValue l / 256 ^ k % 256 = l[k].toNat := by
  induction l generalizing k with
  | nil => cases hk
  | cons b l ih =>
      rw [bytesValue_cons]
      have hb := b.isLt
      cases k with
      | zero =>
          simp only [pow_zero, Nat.div_one, List.getElem_cons_zero]
          omega
      | succ k =>
          -- dropping the least significant byte
          have hdiv : (b.toNat + 256 * bytesValue l) / 256 = bytesValue l := by omega
          rw [pow_succ', ← Nat.div_div_eq_div_mul, hdiv, List.getElem_cons_succ]
          exact ih (Nat.lt_of_succ_lt_succ hk)

theorem gdbDecodeHexStr_ofBytes (l rest : List Byte) :
    gdbDecodeHexStr (Hex.ofBytes l ++ 0 :: rest) = some (BitVec.ofNat 64 (bytesValue l)) := by
  rw [gdbDecodeHexStr, decodeHexLoop_ofBytes, zero_add, one_mul]

end Nemu
