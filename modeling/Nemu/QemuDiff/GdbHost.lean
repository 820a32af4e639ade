import Nemu.Isa
import Nemu.Lib.LittleEndian
import Nemu.QemuDiff.Protocol

/-!
# Registers and memory of the QEMU reference design

`gdb_memcpy_to_qemu`, `gdb_getregs` and `gdb_setregs` of `tools/qemu-diff/src/gdb-host.c`, and the
functions of `diff-test.c` on top of them.  Memory behind a pointer is a function from indices to bytes, and a
function that writes there returns the new contents.
-/

namespace Nemu

/-! ## C strings -/

/-- The characters in front of the terminator. -/
def cString (buf : List Byte) : List Byte := buf.takeWhile (· ≠ 0)

def strlen (buf : List Byte) : Nat := (cString buf).length

/-- The `n` bytes from a pointer on. -/
def bytesAt (f : Nat → Byte) (n : Nat) : List Byte := (List.range n).map f

/-! ## gdb-host.c -/

/-- The bytes of `union isa_gdb_regs`. -/
abbrev IsaGdbRegs := Nat → Byte

/-- The length of `array`. -/
def gdbRegsWords : Nat := 77

/-- `sizeof(union isa_gdb_regs)` -/
def gdbRegsSize : Nat := 4 * gdbRegsWords

/-- What the loops around `sprintf(buf + p, "%c%c", ...)` write. -/
def hexDigits (bytes : List Byte) : List Byte :=
  bytes.flatMap fun b : Byte => [hexEncode (b >>> 4), hexEncode (b &&& 0xf)]

/-- The loop of `gdb_getregs`: `n` more words, the next of which is `array[i]`; `p` is the reply from
the pointer on. -/
def getregsLoop : Nat → Nat → List Byte → IsaGdbRegs → Option IsaGdbRegs
  | 0, _, _, r => some r
  | n + 1, i, p, r => do
      -- the byte behind the word is taken out, and put back after decoding
      let c ← p[8]?
      let p := p.set 8 0
      let value ← gdbDecodeHexStr p
      let p := p.set 8 c
      getregsLoop n (i + 1) (p.drop 8) (LittleEndian.store r (4 * i) 4 (value.setWidth 32))

/-- `"M0x%x,%x:"` -/
def storeHeader (dest : Word) (len : Nat) : List Byte :=
  chr 'M' :: chr '0' :: chr 'x' :: (Hex.ofNat dest.toNat ++ chr ',' :: (Hex.ofNat len ++ [chr ':']))

def mtu : Nat := 1500

section GdbHost

variable {S : Type} (d : Gdbserver S) (tries : Nat)

def gdbMemcpyToQemuSmall (dest : Word) (src : Nat → Byte) (len : Nat) : OnConn S Bool := do
  let buf := storeHeader dest len ++ hexDigits (bytesAt src len) ++ [0]
  gdbSend d buf (strlen buf) tries
  let reply ← gdbRecv d tries
  return cString reply = [chr 'O', chr 'K']

/-- The loop, with the value of `ok` so far, and the last packet. -/
def memcpyToQemuLoop (dest : Word) (src : Nat → Byte) (len : Nat) (ok : Bool) : OnConn S Bool :=
  if mtu < len then do
    let sent ← gdbMemcpyToQemuSmall d tries dest src mtu
    memcpyToQemuLoop (dest + BitVec.ofNat 32 mtu) (fun i => src (mtu + i)) (len - mtu) (ok && sent)
  else do
    let sent ← gdbMemcpyToQemuSmall d tries dest src len
    return ok && sent
termination_by len
decreasing_by exact Nat.sub_lt (by omega) (by decide)

/-- The transfer for a `len` that is not negative. -/
def gdbMemcpyToQemu (dest : Word) (src : Nat → Byte) (len : Nat) : OnConn S Bool :=
  memcpyToQemuLoop d tries dest src len true

/-- For a negative `len` there is one packet: `%x` prints the two's complement, and no byte
follows. -/
def gdbMemcpyToQemuNegative (dest : Word) (len : BitVec 32) : OnConn S Bool := do
  let buf := storeHeader dest len.toNat ++ [0]
  let size := len.toInt * 2 + 128
  -- a negative size is a huge one to `malloc`, which returns `NULL`
  if size < 0 then throw .abort
  else if size < buf.length then throw .bounds
  else do
    gdbSend d buf (strlen buf) tries
    let reply ← gdbRecv d tries
    return cString reply = [chr 'O', chr 'K']

/-- The loop goes on behind a reply of fewer words.  The block of `recv_packet` has 4096 bytes, so
that it is still in there, but reads what has not been written for this reply. -/
def gdbGetregs (r : IsaGdbRegs) : OnConn S (Bool × IsaGdbRegs) := do
  gdbSend d [chr 'g'] 1 tries
  let reply ← gdbRecv d tries
  match getregsLoop gdbRegsWords 0 reply r with
  | none => throw .unwritten
  | some r => return (true, r)

def gdbSetregs (r : IsaGdbRegs) : OnConn S Bool := do
  let buf := chr 'G' :: (hexDigits (bytesAt r gdbRegsSize) ++ [0])
  gdbSend d buf (strlen buf) tries
  let reply ← gdbRecv d tries
  return cString reply = [chr 'O', chr 'K']

/-! ## diff-test.c

`qemuR` is what stands in the local variable `qemu_r` before it is written. -/

/-- `n` is passed on as an `int`. -/
def QemuDiff.difftestMemcpyFromDut (dest : Word) (src : Nat → Byte) (n : BitVec 64) :
    OnConn S Unit := do
  let len := n.setWidth 32
  let ok ←
    if len.msb then gdbMemcpyToQemuNegative d tries dest len
    else gdbMemcpyToQemu d tries dest src len.toNat
  cAssert ok

theorem QemuDiff.difftestMemcpyFromDut_eq (dest : Word) (src : Nat → Byte) {n : BitVec 64}
    (h : n.toNat < 2 ^ 31) :
    QemuDiff.difftestMemcpyFromDut d tries dest src n =
      gdbMemcpyToQemu d tries dest src n.toNat >>= fun ok => cAssert ok := by
  have hlen : (n.setWidth 32).toNat = n.toNat := by
    rw [BitVec.toNat_setWidth]
    omega
  have hmsb : (n.setWidth 32).msb = false := by
    rw [BitVec.msb_eq_decide, hlen]
    exact decide_eq_false (by omega)
  rw [QemuDiff.difftestMemcpyFromDut]
  simp only [hmsb, hlen, Bool.false_eq_true, if_false]

def difftestGetregs (isa : Isa) (r : Nat → Byte) (qemuR : IsaGdbRegs) : OnConn S (Nat → Byte) := do
  let (_, qemuR) ← gdbGetregs d tries qemuR
  return memcpy r 0 (bytesAt qemuR isa.difftestRegSize)

def difftestSetregs (isa : Isa) (r : Nat → Byte) (qemuR : IsaGdbRegs) : OnConn S Unit := do
  -- the registers that the DUT does not have are sent back as they are
  let (_, qemuR) ← gdbGetregs d tries qemuR
  let _ ← gdbSetregs d tries (memcpy qemuR 0 (bytesAt r isa.difftestRegSize))

end GdbHost

end Nemu
