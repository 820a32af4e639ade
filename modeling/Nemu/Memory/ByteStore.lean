import Nemu.Lib.History
import Nemu.Memory.Paddr

/-!
# pmem as a byte store

Writes of any widths may overlap in any order.  Seen from the guest, each address holds the byte
that was written to it last, and a read puts the bytes together.
-/

namespace Nemu

open History LittleEndian StateRules

/-! ## Accesses inside pmem -/

/-- Every byte of the access is in the map of `pmem`. -/
def InsidePmem (base addr : Word) (len : Nat) : Prop :=
  ∀ k < len, mapInside (registerPmem base) (addr + BitVec.ofNat 32 k) = true

instance (base addr : Word) (len : Nat) : Decidable (InsidePmem base addr len) :=
  inferInstanceAs (Decidable (∀ k < len, _))

/-- Only a `pmem` that ends within the address space contains an address. -/
theorem base_of_mapInside {base addr : Word} (h : mapInside (registerPmem base) addr = true) :
    base.toNat + pmemSize ≤ 4294967296 := by
  have hlast : BitVec.ofNat 32 pmemSize - 1#32 = 134217727#32 := by decide
  have hhigh : (registerPmem base).high = base + 134217727#32 := by
    change base + BitVec.ofNat 32 pmemSize - 1#32 = _
    rw [BitVec.sub_eq_add_neg, BitVec.add_assoc, ← BitVec.sub_eq_add_neg, hlast]
  rw [mapInside, Bool.and_eq_true, decide_eq_true_eq, decide_eq_true_eq, hhigh] at h
  -- `high` has not wrapped around, since an address lies below it
  have hle : base ≤ base + 134217727#32 := BitVec.le_trans h.1 h.2
  rw [pmemSize_eq]
  bv_omega

/-- The offset of a later byte of an access that starts inside. -/
theorem InsidePmem.offset {base addr : Word} {len : Nat} (h : InsidePmem base addr len)
    (hlen : len ≤ 4) {k : Nat} (hk : k < len) :
    (addr + BitVec.ofNat 32 k - base).toNat = (addr - base).toNat + k ∧
      (addr - base).toNat + k < pmemSize := by
  have hbase := base_of_mapInside (h k hk)
  have hfirst : (addr - base).toNat < pmemSize := by
    have hzero := h 0 (by omega)
    rwa [show addr + BitVec.ofNat 32 0 = addr from BitVec.add_zero addr,
      mapInside_registerPmem hbase] at hzero
  have hlast := (mapInside_registerPmem hbase).1 (h k hk)
  -- both ends lie in the array, so that nothing wraps around
  have heq : (addr + BitVec.ofNat 32 k - base).toNat = (addr - base).toNat + k := by
    rw [pmemSize_eq] at hfirst
    have hk4 : k < 4 := by omega
    bv_omega
  exact ⟨heq, heq ▸ hlast⟩

/-! ## Writes -/

/-- The arguments of one `paddr_write`. -/
structure PaddrWrite where
  addr : Word
  data : Word
  len : Nat

namespace PaddrWrite

/-- What the write means for the guest: its bytes, least significant first. -/
def meaning (w : PaddrWrite) : Write Word Byte where
  covers a := decide ((a - w.addr).toNat < w.len)
  value a := byteOf w.data (a - w.addr).toNat

structure Valid (base : Word) (w : PaddrWrite) : Prop where
  len : w.len = 1 ∨ w.len = 2 ∨ w.len = 4
  inside : InsidePmem base w.addr w.len

/-- An index of the array that the write touches. -/
def Touches (base : Word) (w : PaddrWrite) (i : Nat) : Prop :=
  (w.addr - base).toNat ≤ i ∧ i < (w.addr - base).toNat + w.len

end PaddrWrite

/-- The writes in order. -/
def paddrWrites (ws : List PaddrWrite) : OnBus Unit :=
  ws.forM fun w => paddrWrite w.addr w.data w.len

/-- The byte that the guest finds at an address. -/
def Bus.guestByte (bus : Bus) (base addr : Word) : Byte := bus.pmem (addr - base).toNat

section Write

variable {base : Word} {bus : Bus} {w : PaddrWrite}

/-- The array after one write. -/
def PaddrWrite.after (base : Word) (bus : Bus) (w : PaddrWrite) : Bus :=
  { bus with pmem := store bus.pmem (w.addr - base).toNat w.len w.data }

theorem PaddrWrite.Valid.run (h : w.Valid base) (hmap : bus.pmemMap = registerPmem base) :
    paddrWrite w.addr w.data w.len bus = .ok ⟨⟩ (w.after base bus) := by
  have hpos : 0 < w.len := by
    have hlen := h.len
    omega
  -- the source tests the first byte alone
  have hin : mapInside bus.pmemMap w.addr = true := by
    have hzero := h.inside 0 hpos
    rwa [show w.addr + BitVec.ofNat 32 0 = w.addr from BitVec.add_zero _, ← hmap] at hzero
  rw [paddrWrite_pmem w.data w.len hin, hmap]
  rfl

/-- For the guest, the write does what it means. -/
theorem PaddrWrite.Valid.guestByte_after (h : w.Valid base) :
    (w.after base bus).guestByte base = w.meaning.apply (bus.guestByte base) := by
  have hlen := h.len
  have hlast := (h.inside.offset (k := w.len - 1) (by omega) (by omega)).2
  rw [pmemSize_eq] at hlast
  funext a
  change store bus.pmem (w.addr - base).toNat w.len w.data (a - base).toNat = _
  rw [store_apply]
  -- the range does not wrap around, so that the two differences agree
  have hcover : ((w.addr - base).toNat ≤ (a - base).toNat ∧
      (a - base).toNat < (w.addr - base).toNat + w.len) ↔ (a - w.addr).toNat < w.len := by
    bv_omega
  by_cases hin : (a - w.addr).toNat < w.len
  · have hsub : (a - base).toNat - (w.addr - base).toNat = (a - w.addr).toNat := by bv_omega
    have hcovers : w.meaning.covers a = true := decide_eq_true hin
    rw [if_pos (hcover.2 hin), hsub, Write.apply, if_pos hcovers]
    rfl
  · have hcovers : ¬ w.meaning.covers a = true := fun h => hin (of_decide_eq_true h)
    rw [if_neg (fun hc => hin (hcover.1 hc)), Write.apply, if_neg hcovers]
    rfl

end Write

/-- All writes carried out: what the guest finds, and what they leave alone. -/
theorem paddrWrites_run {base : Word} {bus : Bus} (hmap : bus.pmemMap = registerPmem base)
    {ws : List PaddrWrite} (h : ∀ w ∈ ws, w.Valid base) :
    Ensures (paddrWrites ws) bus fun _ bus' =>
      bus' = { bus with pmem := bus'.pmem } ∧
      bus'.guestByte base = latest (bus.guestByte base) (ws.map PaddrWrite.meaning) ∧
      ∀ i, (∀ w ∈ ws, ¬ w.Touches base i) → bus'.pmem i = bus.pmem i := by
  induction ws generalizing bus with
  | nil => exact ⟨⟨⟩, bus, rfl, rfl, rfl, fun _ _ => rfl⟩
  | cons w ws ih =>
      have hw := h w List.mem_cons_self
      rcases @ih (w.after base bus) hmap (fun v hv => h v (List.mem_cons_of_mem w hv)) with
        ⟨_, bus', hrun, hrest, hbytes, hframe⟩
      refine ⟨⟨⟩, bus', ?_, hrest, ?_, ?_⟩
      · change (paddrWrite w.addr w.data w.len >>= fun _ => paddrWrites ws) bus = _
        rw [bind_ok (hw.run hmap)]
        exact hrun
      · -- the first write is older than all the others
        rw [hbytes, hw.guestByte_after, List.map_cons, latest_cons]
      · intro i hi
        rw [hframe i fun v hv => hi v (List.mem_cons_of_mem w hv)]
        exact if_neg (hi w List.mem_cons_self)

/-! ## Reads -/

/-- A read puts together the bytes that the guest finds at its addresses. -/
theorem paddrRead_guestByte {base : Word} {bus : Bus} (hmap : bus.pmemMap = registerPmem base)
    {addr : Word} {len : Nat} (hlen : 1 ≤ len ∧ len ≤ 4) (hin : InsidePmem base addr 4) :
    paddrRead addr len bus =
        .ok (load (fun k => bus.guestByte base (addr + BitVec.ofNat 32 k)) 0 len) bus ∧
      mapRead addr len (some bus.pmemMap) bus = paddrRead addr len bus := by
  have hfirst : mapInside bus.pmemMap addr = true := by
    have hzero := hin 0 (by decide)
    rwa [show addr + BitVec.ofNat 32 0 = addr from BitVec.add_zero _, ← hmap] at hzero
  have hlow : bus.pmemMap.low = base := by rw [hmap]; rfl
  have hspace : bus.pmemMap.space = .pmem := by rw [hmap]; rfl
  have hcallback : bus.pmemMap.callback = none := by rw [hmap]; rfl
  have hread := paddrRead_pmem len hfirst
  have hvalue : bus.load (paddrReadAccess bus.pmemMap addr) &&& lenMask len =
      load (fun k => bus.guestByte base (addr + BitVec.ofNat 32 k)) 0 len := by
    -- four bytes are loaded whatever `len` is, and the mask keeps the first ones
    have hmask : bus.load (paddrReadAccess bus.pmemMap addr) &&& lenMask len =
        load bus.pmem (addr - bus.pmemMap.low).toNat len :=
      load_four_and_mask _ _ _ hlen.2
    rw [hmask, hlow]
    refine load_shift fun i hi => ?_
    have hoffset := (hin.offset (k := i) (Nat.le_refl 4) (by omega)).1
    rw [Nat.zero_add]
    change bus.pmem _ = bus.pmem _
    rw [hoffset]
  -- `map_read` comes to the same access through the map that is registered
  have hmapRead : mapRead addr len (some bus.pmemMap) bus =
      .ok (bus.load (paddrReadAccess bus.pmemMap addr) &&& lenMask len) bus := by
    rw [mapRead_run hlen hfirst, hcallback, hspace]
    rfl
  exact ⟨by rw [hread, hvalue], by rw [hmapRead, hread]⟩

/-! ## The store -/

/-- After any sequence of writes inside `pmem`, a read gives the bytes that were written last to
its addresses, and what no write touches has not changed. -/
theorem pmem_byteStore (base : Word) (bus : Bus) (hmap : bus.pmemMap = registerPmem base)
    (ws : List PaddrWrite) (h : ∀ w ∈ ws, w.Valid base) :
    ∃ bus', paddrWrites ws bus = .ok ⟨⟩ bus' ∧
      bus' = { bus with pmem := bus'.pmem } ∧
      (∀ i, (∀ w ∈ ws, ¬ w.Touches base i) → bus'.pmem i = bus.pmem i) ∧
      ∀ addr len, 1 ≤ len ∧ len ≤ 4 → InsidePmem base addr 4 →
        paddrRead addr len bus' =
          .ok (load (fun k => latest (bus.guestByte base) (ws.map PaddrWrite.meaning)
            (addr + BitVec.ofNat 32 k)) 0 len) bus' ∧
        mapRead addr len (some bus'.pmemMap) bus' = paddrRead addr len bus' := by
  rcases paddrWrites_run hmap h with ⟨_, bus', hrun, hrest, hbytes, hframe⟩
  refine ⟨bus', hrun, hrest, hframe, fun addr len hlen hin => ?_⟩
  have hmap' : bus'.pmemMap = registerPmem base := by
    rw [hrest]
    exact hmap
  rw [← hbytes]
  exact paddrRead_guestByte hmap' hlen hin

/-- A word and a halfword over its upper half, at the base of riscv32. -/
def overlappingWrites : List PaddrWrite :=
  [⟨0x80000000, 0x44332211, 4⟩, ⟨0x80000002, 0xbbaa, 2⟩]

theorem overlappingWrites_valid : ∀ w ∈ overlappingWrites, w.Valid 0x80000000 := by
  intro w hw
  simp only [overlappingWrites, List.mem_cons, List.not_mem_nil, or_false] at hw
  rcases hw with rfl | rfl
  · exact ⟨by decide, by decide⟩
  · exact ⟨by decide, by decide⟩

/-- Three bytes read back at an odd address. -/
theorem pmem_byteStore_overlap :
    ∃ bus', paddrWrites overlappingWrites { Bus.zero with pmemMap := registerPmem 0x80000000 } =
        .ok ⟨⟩ bus' ∧
      paddrRead 0x80000001 3 bus' = .ok 0xbbaa22 bus' := by
  rcases pmem_byteStore 0x80000000 { Bus.zero with pmemMap := registerPmem 0x80000000 } rfl
    overlappingWrites overlappingWrites_valid with ⟨bus', hrun, -, -, hread⟩
  refine ⟨bus', hrun, ?_⟩
  rw [(hread 0x80000001 3 (by decide) (by decide)).1]
  exact congrArg (fun v => EStateM.Result.ok v bus') (by decide)

end Nemu
