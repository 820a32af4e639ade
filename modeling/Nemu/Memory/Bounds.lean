import Nemu.Memory.Paddr

/-!
# Bounds of the `pmem` path

`paddr_read` and `paddr_write` decide by the first byte alone whether an access goes to `pmem`.
The load is always four bytes wide and the store `len` bytes, so near the end of the array the
two can reach past it.  This file states exactly when they do.
-/

namespace Nemu

/-- Every index the access touches lies in the array `pmem`. -/
def HostAccess.InPmem (a : HostAccess) : Prop :=
  ∀ i ∈ a.indices, i < pmemSize

/-- The two guest accesses. -/
inductive GuestAccess
  | read
  | write (data : Word)
  deriving DecidableEq, Repr

namespace GuestAccess

/-- The bytes from the address on that the host access of the `pmem` path covers. -/
def hostSize : GuestAccess → Nat → Nat
  | .read, _ => 4
  | .write _, len => len

/-- The host access of the `pmem` path. -/
def hostAccess : GuestAccess → IOMap → Word → Nat → HostAccess
  | .read, map, addr, _ => paddrReadAccess map addr
  | .write _, map, addr, len => paddrWriteAccess map addr len

/-- The access as the program performs it; a write returns nothing of interest. -/
def run : GuestAccess → Word → Nat → OnBus Word
  | .read, addr, len => paddrRead addr len
  | .write data, addr, len => do
      paddrWrite addr data len
      return 0

/-- The state after the `pmem` path of an access. -/
def after : GuestAccess → Bus → HostAccess → Bus
  | .read, bus, _ => bus
  | .write data, bus, a => bus.store a data

end GuestAccess

theorem HostAccess.inPmem_iff {a : HostAccess} (hsize : 0 < a.size) :
    a.InPmem ↔ a.offset + a.size ≤ pmemSize := by
  constructor
  · intro h
    -- the last byte touched is the one that decides
    have hlast : a.offset + (a.size - 1) ∈ a.indices :=
      HostAccess.mem_indices.2 (by omega)
    have hlt := h _ hlast
    omega
  · intro h i hi
    have hbound := (HostAccess.mem_indices.1 hi).2
    omega

/-- The `pmem` path performs the host access `g.hostAccess` and nothing else. -/
theorem GuestAccess.run_pmem (g : GuestAccess) {bus : Bus} {addr : Word} (len : Nat)
    (h : mapInside bus.pmemMap addr = true) :
    ∃ v, g.run addr len bus = .ok v (g.after bus (g.hostAccess bus.pmemMap addr len)) := by
  cases g with
  | read =>
      exact ⟨_, paddrRead_pmem len h⟩
  | write data =>
      refine ⟨0, ?_⟩
      have hrun := paddrWrite_pmem data len h
      simp only [GuestAccess.run, StateRules.bind_ok hrun]
      rfl

/-! ## When the path stays inside the array -/

/-- What a bounds check owes to an access of `len` bytes: if it lets the access through, only
bytes of `pmem` are touched, and the access does not straddle the end of `pmem`. -/
structure GuestAccess.Safe (g : GuestAccess) (map : IOMap) (addr : Word) (len : Nat) : Prop where
  touched : mapInside map addr = true → (g.hostAccess map addr len).InPmem
  noStraddle : mapInside map addr = true → (addr - map.low).toNat + len ≤ pmemSize

theorem GuestAccess.hostAccess_inPmem_iff (g : GuestAccess) (map : IOMap) (addr : Word)
    {len : Nat} (hlen : 0 < len) :
    (g.hostAccess map addr len).InPmem ↔ (addr - map.low).toNat + g.hostSize len ≤ pmemSize := by
  cases g with
  | read =>
      exact HostAccess.inPmem_iff (a := paddrReadAccess map addr) (by simp [paddrReadAccess])
  | write data =>
      exact HostAccess.inPmem_iff (a := paddrWriteAccess map addr len) hlen

theorem GuestAccess.len_le_hostSize (g : GuestAccess) {len : Nat}
    (hlen : len = 1 ∨ len = 2 ∨ len = 4) : len ≤ g.hostSize len := by
  cases g with
  | read =>
      simp only [GuestAccess.hostSize]
      omega
  | write data =>
      exact Nat.le_refl len

/-- An access is safe exactly when it does not take the `pmem` path, or the bytes that its host
access covers (four for a read, `len` for a write) end inside the array. -/
theorem guestAccess_safe_iff (g : GuestAccess) (base addr : Word) (len : Nat)
    (hlen : len = 1 ∨ len = 2 ∨ len = 4) :
    g.Safe (registerPmem base) addr len ↔
      (mapInside (registerPmem base) addr = true →
        (addr - base).toNat + g.hostSize len ≤ pmemSize) := by
  have hpos : 0 < len := by omega
  have hiff := g.hostAccess_inPmem_iff (registerPmem base) addr hpos
  have hlow : (registerPmem base).low = base := rfl
  rw [hlow] at hiff
  constructor
  · intro h hin
    exact hiff.1 (h.touched hin)
  · intro h
    refine ⟨fun hin => hiff.2 (h hin), fun hin => ?_⟩
    have hfit := h hin
    have hle := g.len_le_hostSize hlen
    rw [hlow]
    omega

/-- A two-byte write that ends with the last byte of `pmem` is safe. -/
theorem guestAccess_safe_iff_last_halfword :
    (GuestAccess.write 7).Safe (registerPmem 0) 0x7fffffe 2 :=
  (guestAccess_safe_iff (.write 7) 0 0x7fffffe 2 (by decide)).2
    (fun _ => by rw [pmemSize_eq]; decide)

/-- A one-byte read of the last byte of `pmem` touches the three bytes behind the array. -/
theorem read_last_byte_unsafe :
    ¬ ∀ (g : GuestAccess) (base addr : Word) (len : Nat), (len = 1 ∨ len = 2 ∨ len = 4) →
        g.Safe (registerPmem base) addr len := by
  intro h
  have hread := (h .read 0 0x7ffffff 1 (by decide)).touched (by decide)
  have hbehind : 134217730 < pmemSize :=
    hread 134217730 (HostAccess.mem_indices.2 (by decide))
  rw [pmemSize_eq] at hbehind
  omega

end Nemu
