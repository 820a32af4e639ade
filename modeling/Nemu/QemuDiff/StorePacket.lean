import Nemu.QemuDiff.Exchange

/-!
# The packet M

What a server reads in a packet `M addr,length:XX...`, as the protocol documents it: two numbers and
as many bytes, all of them in hexadecimal.  The packet that the client writes says what the client
means by it.
-/

namespace Nemu

/-! ## Reading the packet -/

def expect (c : Byte) : List Byte → Option (List Byte)
  | b :: t => if b = c then some t else none
  | [] => none

/-- An address may begin with `0x`. -/
def skip0x : List Byte → List Byte
  | a :: b :: t => if a = chr '0' ∧ b = chr 'x' then t else a :: b :: t
  | t => t

/-- The address and the bytes that the payload of a packet says. -/
def parseStore (command : List Byte) : Option (Nat × List Byte) := do
  let t ← expect (chr 'M') command
  let (addr, t) := Hex.readNat (skip0x t)
  let t ← expect (chr ',') t
  let (len, t) := Hex.readNat t
  let t ← expect (chr ':') t
  let bytes ← Hex.toBytes t
  if bytes.length = len then some (addr, bytes) else none

/-- The payload of the packet that the client sends for `bytes`. -/
def storeCommand (dest : Word) (bytes : List Byte) : List Byte :=
  storeHeader dest bytes.length ++ Hex.ofBytes bytes

theorem parseStore_storeCommand (dest : Word) (bytes : List Byte) :
    parseStore (storeCommand dest bytes) = some (dest.toNat, bytes) := by
  have hcomma : Hex.isDigit (chr ',') = false := by decide
  have hcolon : Hex.isDigit (chr ':') = false := by decide
  have haddr := Hex.readNat_ofNat dest.toNat hcomma
    (Hex.ofNat bytes.length ++ chr ':' :: Hex.ofBytes bytes)
  have hlen := Hex.readNat_ofNat bytes.length hcolon (Hex.ofBytes bytes)
  simp only [storeCommand, storeHeader, List.cons_append, List.append_assoc, List.nil_append,
    parseStore, expect, if_true, skip0x, and_self, Option.bind_eq_bind, Option.bind_some, haddr,
    hlen, Hex.toBytes_ofBytes]

/-! ## Its characters -/

/-- The payload consists of digits and of the four characters around them. -/
theorem mem_storeCommand {dest : Word} {bytes : List Byte} {c : Byte}
    (h : c ∈ storeCommand dest bytes) :
    c ∈ [chr 'M', chr 'x', chr ',', chr ':'] ∨ ∃ n < 16, c = Hex.digit n := by
  have hzero : chr '0' = Hex.digit 0 := by decide
  simp only [storeCommand, storeHeader, List.mem_append, List.mem_cons, List.not_mem_nil,
    or_false] at h
  rcases h with (rfl | rfl | rfl | haddr | rfl | hlen | rfl) | hbytes
  · exact Or.inl (by decide)
  · exact Or.inr ⟨0, by decide, hzero⟩
  · exact Or.inl (by decide)
  · exact Or.inr (Hex.mem_ofNat haddr)
  · exact Or.inl (by decide)
  · exact Or.inr (Hex.mem_ofNat hlen)
  · exact Or.inl (by decide)
  · exact Or.inr (Hex.mem_ofBytes hbytes)

theorem plain_storeCommand (dest : Word) (bytes : List Byte) : Plain (storeCommand dest bytes) := by
  have hmarks : ∀ c ∈ [chr 'M', chr 'x', chr ',', chr ':'],
      c ≠ chr '$' ∧ c ≠ chr '#' ∧ c ≠ chr '}' ∧ c ≠ chr '*' := by decide
  intro c hc
  rcases mem_storeCommand hc with hmark | ⟨n, hn, rfl⟩
  · exact hmarks c hmark
  · exact plain_digit n hn

theorem storeCommand_ne_zero {dest : Word} {bytes : List Byte} {c : Byte}
    (h : c ∈ storeCommand dest bytes) : c ≠ 0 := by
  have hmarks : ∀ c ∈ [chr 'M', chr 'x', chr ',', chr ':'], c ≠ 0 := by decide
  have hdigits : ∀ n < 16, Hex.digit n ≠ 0 := by decide
  rcases mem_storeCommand h with hmark | ⟨n, hn, rfl⟩
  · exact hmarks c hmark
  · exact hdigits n hn

end Nemu
