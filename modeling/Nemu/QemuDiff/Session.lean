import Nemu.Lib.Requests
import Nemu.QemuDiff.GdbHost

/-!
# Sessions with QEMU

The rest of `tools/qemu-diff/`: stepping, the `init_isa` of each instruction set, and any sequence
of the calls that NEMU makes through the library.  Whatever they do, they do it by commands that are
each sent and answered once; such functions are clients of the connection.
-/

namespace Nemu

open Requests StateRules

/-! ## Stepping -/

/-- `"vCont;s:1"` -/
def stepCommand : List Byte :=
  [chr 'v', chr 'C', chr 'o', chr 'n', chr 't', chr ';', chr 's', chr ':', chr '1']

section Functions

variable {S : Type} (d : Gdbserver S) (tries : Nat)

def gdbSi : OnConn S Bool := do
  let buf := stepCommand ++ [0]
  gdbSend d buf (strlen buf) tries
  let _ ← gdbRecv d tries
  return true

def difftestExec : Nat → OnConn S Unit
  | 0 => pure ()
  | n + 1 => do
      let _ ← gdbSi d tries
      difftestExec n

/-! ## init.c -/

/-- `init_isa` of x86 and riscv32: code at an address, registers to start it, and 20 steps. -/
def startCode (dest : Word) (code : List Byte) (setRegs : IsaGdbRegs → IsaGdbRegs)
    (qemuR : IsaGdbRegs) : OnConn S Unit := do
  let ok ← gdbMemcpyToQemu d tries dest (fun i => code.getD i 0) code.length
  cAssert ok
  let (_, r) ← gdbGetregs d tries qemuR
  let ok ← gdbSetregs d tries (setRegs r)
  cAssert ok
  difftestExec d tries 20

end Functions

/-- `array[k]` -/
def IsaGdbRegs.setWord (r : IsaGdbRegs) (k : Nat) (v : Word) : IsaGdbRegs :=
  LittleEndian.store r (4 * k) 4 v

/-- The code that enters protected mode. -/
def mbr : List Byte :=
  [0xfa,
   0x31, 0xc0,
   0x8e, 0xd8,
   0x8e, 0xc0,
   0x8e, 0xd0,
   0x0f, 0x01, 0x16, 0x44, 0x7c,
   0x0f, 0x20, 0xc0,
   0x66, 0x83, 0xc8, 0x01,
   0x0f, 0x22, 0xc0,
   0xea, 0x1d, 0x7c, 0x08, 0x00,
   0x66, 0xb8, 0x10, 0x00,
   0x8e, 0xd8,
   0x8e, 0xc0,
   0x8e, 0xd0,
   0xeb, 0xfe,
   0x8d, 0x76, 0x00,
   0x00, 0x00, 0x00, 0x00, 0x00, 0x00, 0x00, 0x00,
   0xff, 0xff, 0x00, 0x00, 0x00, 0x9a, 0xcf, 0x00,
   0xff, 0xff, 0x00, 0x00, 0x00, 0x92, 0xcf, 0x00,
   0x17, 0x00, 0x2c, 0x7c, 0x00, 0x00]

/-- The code that permits access to all of memory in S mode. -/
def initcode : List Word :=
  [0x800006b7, 0x03c68693, 0x30569073,
   0xfff00513, 0x01f00593, 0x3b051073, 0x3a059073,
   0x000c1637, 0x80060613, 0x30061073,
   0x00468693, 0x34169073,
   0x30251073,
   0x30200073,
   0x0000006f, 0x0000006f, 0x0000006f, 0x0000006f]

/-- The 32 general registers come first on riscv32; on x86 `eip` follows 8, and `cs` two more. -/
def QemuDiff.initIsa {S : Type} (d : Gdbserver S) (tries : Nat) (isa : Isa) (qemuR : IsaGdbRegs) :
    OnConn S Unit :=
  match isa with
  | .x86 =>
      startCode d tries 0x7c00 mbr (fun r => (r.setWord 8 0x7c00).setWord 10 0x0000) qemuR
  | .riscv32 =>
      startCode d tries 0x80000000 (initcode.flatMap fun w => LittleEndian.bytesOf w 4)
        (fun r => r.setWord 32 0x80000000) qemuR
  | .mips32 => pure ()

/-! ## Calls -/

/-- The functions of the library that NEMU calls. -/
inductive DiffCall
  | initIsa
  | memcpyFromDut (dest : Word) (src : Nat → Byte) (n : BitVec 64)
  | getregs (r : Nat → Byte)
  | setregs (r : Nat → Byte)
  | exec (n : BitVec 64)

section Calls

variable {S : Type} (d : Gdbserver S) (tries : Nat) (isa : Isa) (qemuR : IsaGdbRegs)

/-- A call, with the block that `difftest_getregs` fills; `qemuR` is what uninitialized variables
hold. -/
def DiffCall.run : DiffCall → OnConn S (Option (Nat → Byte))
  | initIsa => do
      QemuDiff.initIsa d tries isa qemuR
      return none
  | memcpyFromDut dest src n => do
      QemuDiff.difftestMemcpyFromDut d tries dest src n
      return none
  | getregs r => do
      let r ← difftestGetregs d tries isa r qemuR
      return some r
  | setregs r => do
      difftestSetregs d tries isa r qemuR
      return none
  | exec n => do
      difftestExec d tries n.toNat
      return none

def session : List DiffCall → OnConn S (List (Option (Nat → Byte)))
  | [] => return []
  | call :: calls => do
      let r ← call.run d tries isa qemuR
      let rs ← session calls
      return r :: rs

end Calls

/-! ## Clients -/

/-- One command, and the reply to it. -/
def gdbCall {S : Type} (d : Gdbserver S) (tries : Nat) (command : List Byte) :
    OnConn S (List Byte) :=
  gdbSend d command command.length tries >>= fun _ => gdbRecv d tries

abbrev GdbClient (α : Type) := Client (List Byte) (List Byte) Fault α

/-- A function of the library, over any connection. -/
abbrev OverConn (α : Type) := (S : Type) → Gdbserver S → Nat → OnConn S α

/-- What `f` does is done by commands, the same ones over every connection. -/
def IsClient {α : Type} (f : OverConn α) : Prop :=
  ∃ c : GdbClient α, ∀ S d tries, f S d tries = c.run (gdbCall d tries)

section IsClient

variable {α β : Type}

theorem IsClient.pure (a : α) : IsClient fun S _ _ => (Pure.pure a : OnConn S α) :=
  ⟨.ret a, fun _ _ _ => rfl⟩

theorem IsClient.throw (e : Fault) : IsClient fun S _ _ => (MonadExcept.throw e : OnConn S α) :=
  ⟨.fail e, fun _ _ _ => rfl⟩

theorem IsClient.bind {f : OverConn α} {g : α → OverConn β} (hf : IsClient f)
    (hg : ∀ a, IsClient (g a)) : IsClient fun S d tries => f S d tries >>= fun a => g a S d tries := by
  rcases hf with ⟨c, hc⟩
  choose k hk using hg
  refine ⟨c.bind k, fun S d tries => ?_⟩
  rw [Client.run_bind, ← hc]
  exact congrArg _ (funext fun a => hk a S d tries)

/-- Only the part of the buffer that is sent matters. -/
theorem gdbSend_take {S : Type} (d : Gdbserver S) (buf : List Byte) (size tries : Nat) :
    gdbSend d buf size tries = gdbSend d (buf.take size) (buf.take size).length tries := by
  induction tries with
  | zero => rfl
  | succ tries ih => rw [gdbSend, gdbSend, ih, List.take_length]

theorem IsClient.call (buf : List Byte) (size : Nat) :
    IsClient fun _ d tries => gdbSend d buf size tries >>= fun _ => gdbRecv d tries := by
  refine ⟨.ask (buf.take size) .ret, fun S d tries => ?_⟩
  have hcall : (gdbSend d buf size tries >>= fun _ => gdbRecv d tries) =
      gdbCall d tries (buf.take size) := by
    rw [gdbSend_take]
    rfl
  exact hcall.trans (bind_pure _).symm

/-- A command whose reply is looked at. -/
theorem IsClient.ask (buf : List Byte) (size : Nat) {g : List Byte → OverConn β}
    (hg : ∀ reply, IsClient (g reply)) :
    IsClient fun S d tries => gdbSend d buf size tries >>= fun _ =>
      gdbRecv d tries >>= fun reply => g reply S d tries := by
  rcases (IsClient.call buf size).bind hg with ⟨c, hc⟩
  exact ⟨c, fun S d tries => (bind_assoc _ _ _).symm.trans (hc S d tries)⟩

theorem IsClient.cAssert (b : Bool) : IsClient fun S _ _ => (Nemu.cAssert b : OnConn S PUnit) := by
  cases b with
  | true => exact IsClient.pure PUnit.unit
  | false => exact IsClient.throw .abort

end IsClient

/-! ### The functions of the library -/

theorem gdbMemcpyToQemuSmall_isClient (dest : Word) (src : Nat → Byte) (len : Nat) :
    IsClient fun _ d tries => gdbMemcpyToQemuSmall d tries dest src len :=
  .ask _ _ fun _ => .pure _

theorem memcpyToQemuLoop_isClient (len : Nat) : ∀ (dest : Word) (src : Nat → Byte) (ok : Bool),
    IsClient fun _ d tries => memcpyToQemuLoop d tries dest src len ok := by
  induction len using Nat.strongRecOn with
  | ind len ih =>
      intro dest src ok
      by_cases hlong : mtu < len
      · have hlt : len - mtu < len := Nat.sub_lt (Nat.zero_lt_of_lt hlong) (by decide)
        rcases (gdbMemcpyToQemuSmall_isClient dest src mtu).bind fun sent =>
          ih (len - mtu) hlt (dest + BitVec.ofNat 32 mtu) (fun i => src (mtu + i)) (ok && sent) with
          ⟨c, hc⟩
        refine ⟨c, fun S d tries => ?_⟩
        change memcpyToQemuLoop d tries dest src len ok = _
        rw [memcpyToQemuLoop, if_pos hlong]
        exact hc S d tries
      · rcases (gdbMemcpyToQemuSmall_isClient dest src len).bind fun sent =>
          IsClient.pure (ok && sent) with ⟨c, hc⟩
        refine ⟨c, fun S d tries => ?_⟩
        change memcpyToQemuLoop d tries dest src len ok = _
        rw [memcpyToQemuLoop, if_neg hlong]
        exact hc S d tries

theorem gdbMemcpyToQemu_isClient (dest : Word) (src : Nat → Byte) (len : Nat) :
    IsClient fun _ d tries => gdbMemcpyToQemu d tries dest src len :=
  memcpyToQemuLoop_isClient len dest src true

theorem gdbMemcpyToQemuNegative_isClient (dest : Word) (len : BitVec 32) :
    IsClient fun _ d tries => gdbMemcpyToQemuNegative d tries dest len := by
  unfold gdbMemcpyToQemuNegative
  dsimp only
  split
  · exact .throw _
  · split
    · exact .throw _
    · exact .ask _ _ fun _ => .pure _

theorem difftestMemcpyFromDut_isClient (dest : Word) (src : Nat → Byte) (n : BitVec 64) :
    IsClient fun _ d tries => QemuDiff.difftestMemcpyFromDut d tries dest src n := by
  unfold QemuDiff.difftestMemcpyFromDut
  dsimp only
  split
  · exact (gdbMemcpyToQemuNegative_isClient dest _).bind fun ok => .cAssert ok
  · exact (gdbMemcpyToQemu_isClient dest src _).bind fun ok => .cAssert ok

theorem gdbGetregs_isClient (r : IsaGdbRegs) : IsClient fun _ d tries => gdbGetregs d tries r := by
  refine .ask _ _ fun reply => ?_
  cases getregsLoop gdbRegsWords 0 reply r with
  | none => exact .throw _
  | some r => exact .pure _

theorem gdbSetregs_isClient (r : IsaGdbRegs) : IsClient fun _ d tries => gdbSetregs d tries r :=
  .ask _ _ fun _ => .pure _

theorem difftestExec_isClient (n : Nat) : IsClient fun _ d tries => difftestExec d tries n := by
  induction n with
  | zero => exact .pure _
  | succ n ih =>
      have hsi : IsClient fun _ d tries => gdbSi d tries := .ask _ _ fun _ => .pure _
      exact hsi.bind fun _ => ih

theorem startCode_isClient (dest : Word) (code : List Byte) (setRegs : IsaGdbRegs → IsaGdbRegs)
    (qemuR : IsaGdbRegs) :
    IsClient fun _ d tries => startCode d tries dest code setRegs qemuR := by
  refine (gdbMemcpyToQemu_isClient _ _ _).bind fun ok => (IsClient.cAssert ok).bind fun _ => ?_
  refine (gdbGetregs_isClient qemuR).bind fun r => ?_
  refine (gdbSetregs_isClient (setRegs r.2)).bind fun ok => (IsClient.cAssert ok).bind fun _ => ?_
  exact difftestExec_isClient 20

theorem initIsa_isClient (isa : Isa) (qemuR : IsaGdbRegs) :
    IsClient fun _ d tries => QemuDiff.initIsa d tries isa qemuR := by
  cases isa with
  | x86 =>
      exact startCode_isClient 0x7c00 mbr
        (fun r => (r.setWord 8 0x7c00).setWord 10 0x0000) qemuR
  | riscv32 =>
      exact startCode_isClient 0x80000000 (initcode.flatMap fun w => LittleEndian.bytesOf w 4)
        (fun r => r.setWord 32 0x80000000) qemuR
  | mips32 => exact .pure _

theorem DiffCall.run_isClient (isa : Isa) (qemuR : IsaGdbRegs) (call : DiffCall) :
    IsClient fun _ d tries => call.run d tries isa qemuR := by
  cases call with
  | initIsa => exact (initIsa_isClient isa qemuR).bind fun _ => .pure _
  | memcpyFromDut dest src n =>
      exact (difftestMemcpyFromDut_isClient dest src n).bind fun _ => .pure _
  | getregs r =>
      have hget : IsClient fun _ d tries => difftestGetregs d tries isa r qemuR :=
        (gdbGetregs_isClient qemuR).bind fun _ => .pure _
      exact hget.bind fun _ => .pure _
  | setregs r =>
      have hset : IsClient fun _ d tries => difftestSetregs d tries isa r qemuR :=
        (gdbGetregs_isClient qemuR).bind fun q => (gdbSetregs_isClient _).bind fun _ => .pure _
      exact hset.bind fun _ => .pure _
  | exec n => exact (difftestExec_isClient n.toNat).bind fun _ => .pure _

theorem session_isClient (isa : Isa) (qemuR : IsaGdbRegs) (calls : List DiffCall) :
    IsClient fun _ d tries => session d tries isa qemuR calls := by
  induction calls with
  | nil => exact .pure _
  | cons call calls ih =>
      exact (call.run_isClient isa qemuR).bind fun r => ih.bind fun rs => .pure _

end Nemu
