import Mathlib.Tactic.Common

/-!
# Hexadecimal text

Bytes written as two hexadecimal digits each, the more significant one first, and numbers written
without leading zeros.  Text is a list of bytes as well.

- `digit n`, `upperDigit n`  : the digit of a number below 16
- `ofByte b`, `ofBytes l`    : a byte, and a string of bytes
- `toBytes t`                : the bytes that a text consists of
- `ofNat n`, `readNat t`     : a number, and the number that a text begins with
-/

namespace Hex

/-! ## Digits -/

def digit (n : Nat) : BitVec 8 := BitVec.ofNat 8 (if n < 10 then 48 + n else 87 + n)

def upperDigit (n : Nat) : BitVec 8 := BitVec.ofNat 8 (if n < 10 then 48 + n else 55 + n)

theorem div_lt (b : BitVec 8) : b.toNat / 16 < 16 := by
  have hlt := b.isLt
  omega

theorem mod_lt (b : BitVec 8) : b.toNat % 16 < 16 := Nat.mod_lt _ (by decide)

/-! ## Bytes -/

def ofByte (b : BitVec 8) : List (BitVec 8) := [digit (b.toNat / 16), digit (b.toNat % 16)]

def upperOfByte (b : BitVec 8) : List (BitVec 8) :=
  [upperDigit (b.toNat / 16), upperDigit (b.toNat % 16)]

def ofBytes (l : List (BitVec 8)) : List (BitVec 8) := l.flatMap ofByte

@[simp] theorem ofBytes_nil : ofBytes [] = [] := rfl

@[simp] theorem ofBytes_cons (b : BitVec 8) (l : List (BitVec 8)) :
    ofBytes (b :: l) = digit (b.toNat / 16) :: digit (b.toNat % 16) :: ofBytes l := rfl

theorem ofBytes_append (l m : List (BitVec 8)) : ofBytes (l ++ m) = ofBytes l ++ ofBytes m :=
  List.flatMap_append

theorem length_ofBytes (l : List (BitVec 8)) : (ofBytes l).length = 2 * l.length := by
  induction l with
  | nil => rfl
  | cons b l ih =>
      rw [ofBytes_cons, List.length_cons, List.length_cons, List.length_cons, ih]
      omega

theorem mem_ofBytes {l : List (BitVec 8)} {c : BitVec 8} (h : c ∈ ofBytes l) :
    ∃ n < 16, c = digit n := by
  rcases List.mem_flatMap.1 h with ⟨b, _, hc⟩
  have hc' : c = digit (b.toNat / 16) ∨ c = digit (b.toNat % 16) := by simpa [ofByte] using hc
  rcases hc' with rfl | rfl
  · exact ⟨_, div_lt b, rfl⟩
  · exact ⟨_, mod_lt b, rfl⟩

/-! ## Reading bytes -/

def isDigit (c : BitVec 8) : Bool :=
  (48 ≤ c && c ≤ 57) || (97 ≤ c && c ≤ 102) || (65 ≤ c && c ≤ 70)

/-- The value of a digit of either case. -/
def nibble (c : BitVec 8) : Nat :=
  if c ≤ 57 then c.toNat - 48 else if c ≤ 70 then c.toNat - 55 else c.toNat - 87

theorem isDigit_digit : ∀ n < 16, isDigit (digit n) = true := by decide

theorem nibble_digit : ∀ n < 16, nibble (digit n) = n := by decide

/-- `none` for an odd number of digits, and for anything that is no digit. -/
def toBytes : List (BitVec 8) → Option (List (BitVec 8))
  | [] => some []
  | [_] => none
  | a :: b :: t =>
      if isDigit a && isDigit b then
        (toBytes t).map (BitVec.ofNat 8 (16 * nibble a + nibble b) :: ·)
      else none

theorem toBytes_ofBytes (l : List (BitVec 8)) : toBytes (ofBytes l) = some l := by
  induction l with
  | nil => rfl
  | cons b l ih =>
      have hbyte : BitVec.ofNat 8 (16 * (b.toNat / 16) + b.toNat % 16) = b := by
        rw [Nat.div_add_mod, BitVec.ofNat_toNat, BitVec.setWidth_eq]
      rw [ofBytes_cons, toBytes, isDigit_digit _ (div_lt b), isDigit_digit _ (mod_lt b),
        nibble_digit _ (div_lt b), nibble_digit _ (mod_lt b), hbyte, ih]
      rfl

/-! ## Numbers -/

/-- `"%x"` -/
def ofNat (n : Nat) : List (BitVec 8) :=
  (Nat.toDigits 16 n).map fun c => BitVec.ofNat 8 c.toNat

def value (l : List (BitVec 8)) : Nat := l.foldl (fun n c => 16 * n + nibble c) 0

/-- The number that a text begins with, and what follows it. -/
def readNat (t : List (BitVec 8)) : Nat × List (BitVec 8) :=
  (value (t.takeWhile isDigit), t.dropWhile isDigit)

theorem ofNat_digitChar : ∀ n < 16, BitVec.ofNat 8 (Nat.digitChar n).toNat = digit n := by decide

theorem ofNat_of_lt {n : Nat} (hn : n < 16) : ofNat n = [digit n] := by
  rw [ofNat, Nat.toDigits_of_lt_base hn, List.map_singleton, ofNat_digitChar n hn]

/-- The last digit of a larger number. -/
theorem ofNat_of_le {n : Nat} (hn : 16 ≤ n) : ofNat n = ofNat (n / 16) ++ [digit (n % 16)] := by
  rw [ofNat, Nat.toDigits_of_base_le (by decide) hn, List.map_append, List.map_singleton,
    ofNat_digitChar _ (Nat.mod_lt n (by decide))]
  rfl

theorem mem_ofNat {n : Nat} {c : BitVec 8} (h : c ∈ ofNat n) : ∃ k < 16, c = digit k := by
  induction n using Nat.strongRecOn with
  | ind n ih =>
      rcases Nat.lt_or_ge n 16 with hlt | hge
      · rw [ofNat_of_lt hlt, List.mem_singleton] at h
        exact ⟨n, hlt, h⟩
      · rw [ofNat_of_le hge, List.mem_append, List.mem_singleton] at h
        rcases h with h | h
        · exact ih (n / 16) (Nat.div_lt_self (by omega) (by decide)) h
        · exact ⟨n % 16, Nat.mod_lt n (by decide), h⟩

theorem value_ofNat (n : Nat) : value (ofNat n) = n := by
  induction n using Nat.strongRecOn with
  | ind n ih =>
      rcases Nat.lt_or_ge n 16 with hlt | hge
      · rw [ofNat_of_lt hlt, value, List.foldl_cons, List.foldl_nil, nibble_digit n hlt]
        omega
      · have hrest := ih (n / 16) (Nat.div_lt_self (by omega) (by decide))
        rw [value] at hrest
        rw [ofNat_of_le hge, value, List.foldl_append, hrest, List.foldl_cons, List.foldl_nil,
          nibble_digit _ (Nat.mod_lt n (by decide)), Nat.div_add_mod]

/-- A number in front of something that is no digit. -/
theorem readNat_ofNat (n : Nat) {c : BitVec 8} (hc : isDigit c = false) (t : List (BitVec 8)) :
    readNat (ofNat n ++ c :: t) = (n, c :: t) := by
  have hdigits : ∀ b ∈ ofNat n, isDigit b = true := by
    intro b hb
    rcases mem_ofNat hb with ⟨k, hk, rfl⟩
    exact isDigit_digit k hk
  have hstop : isDigit c ≠ true := by rw [hc]; decide
  rw [readNat, List.takeWhile_append_of_pos hdigits, List.dropWhile_append_of_pos hdigits,
    List.takeWhile_cons_of_neg hstop, List.dropWhile_cons_of_neg hstop, List.append_nil,
    value_ofNat]

end Hex
