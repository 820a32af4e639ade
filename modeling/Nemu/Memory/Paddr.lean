import Nemu.Memory.Device

/-!
# Guest memory

`src/memory/memory.c` and `src/device/io/`: physical reads and writes go to the array `pmem` when
`map_inside` holds for the address, and to a device map otherwise.

`pmem` is a function on all indices.  Indices from `pmemSize` on stand for the host bytes behind
the array; the host access that each path performs is spelled out (`HostAccess`), so that what it
touches can be stated.
-/

namespace Nemu

open StateRules

def pmemSize : Nat := 128 * 1024 * 1024

theorem pmemSize_eq : pmemSize = 134217728 := rfl

/-! ## The bus -/

/-- What a guest access can see and change.  `isSkipRef` is the flag of `diff-test.c`: looking up
a device map sets it.  `skipRefCalls` counts the calls that set it, which the source does not. -/
structure Bus where
  pmem : Nat → Byte
  pmemMap : IOMap
  io : IOState
  isSkipRef : Bool
  skipRefCalls : Nat

abbrev OnBus := EStateM Fault Bus

/-- A host load or store: `size` bytes from `offset` on in the array `space` points at. -/
structure HostAccess where
  space : Space
  offset : Nat
  size : Nat
  deriving DecidableEq, Repr

/-- The indices that a host access touches, counted from the start of its array. -/
def HostAccess.indices (a : HostAccess) : List Nat :=
  List.range' a.offset a.size

theorem HostAccess.mem_indices {a : HostAccess} {i : Nat} :
    i ∈ a.indices ↔ a.offset ≤ i ∧ i < a.offset + a.size := by
  simp [HostAccess.indices, List.mem_range'_1]

def Bus.bytes (bus : Bus) : Space → Nat → Byte
  | .pmem => bus.pmem
  | .ioSpace base => fun i => bus.io.ioSpace (base + i)

def Bus.load (bus : Bus) (a : HostAccess) : Word :=
  LittleEndian.load (bus.bytes a.space) a.offset a.size

def Bus.store (bus : Bus) (a : HostAccess) (data : Word) : Bus :=
  match a.space with
  | .pmem => { bus with pmem := LittleEndian.store bus.pmem a.offset a.size data }
  | .ioSpace base =>
      { bus with
        io := { bus.io with
          ioSpace := LittleEndian.store bus.io.ioSpace (base + a.offset) a.size data } }

/-- `~0u >> ((4 - len) << 3)` -/
def lenMask (len : Nat) : Word :=
  BitVec.allOnes 32 >>> ((4 - len) <<< 3)

/-! ## Device maps -/

def Bus.skipRef (bus : Bus) : Bus :=
  { bus with isSkipRef := true, skipRefCalls := bus.skipRefCalls + 1 }

def difftestSkipRef : OnBus Unit := modify Bus.skipRef

/-- `find_mapid_by_addr`, giving the map itself instead of its index. -/
def findMapByAddr (maps : List IOMap) (addr : Word) : OnBus (Option IOMap) :=
  match maps.find? (fun map => mapInside map addr) with
  | some map => do
      difftestSkipRef
      return some map
  | none => return none

def fetchMmioMap (addr : Word) : OnBus (Option IOMap) := do
  let bus ← get
  findMapByAddr bus.io.mmioMaps addr

def checkBound (map : Option IOMap) (addr : Word) : OnBus IOMap :=
  match map with
  | some map => do
      cAssert (mapInside map addr)
      return map
  | none => throw .abort

def invokeCallback (c : Option IOCallback) (offset : Word) (len : Nat) (isWrite : Bool) :
    OnBus Unit :=
  match c with
  | none => pure ()
  | some c => fun bus =>
      match c.run offset len isWrite bus.io with
      | .ok a io => .ok a { bus with io := io }
      | .error e io => .error e { bus with io := io }

theorem invokeCallback_ok {c : IOCallback} {offset : Word} {len : Nat} {isWrite : Bool}
    {bus : Bus} {io : IOState} (h : c.run offset len isWrite bus.io = .ok ⟨⟩ io) :
    invokeCallback (some c) offset len isWrite bus = .ok ⟨⟩ { bus with io } := by
  unfold invokeCallback
  simp only [h]

def mapRead (addr : Word) (len : Nat) (map : Option IOMap) : OnBus Word := do
  cAssert (decide (1 ≤ len) && decide (len ≤ 4))
  let map ← checkBound map addr
  let offset := addr - map.low
  invokeCallback map.callback offset len false
  let bus ← get
  return bus.load ⟨map.space, offset.toNat, 4⟩ &&& lenMask len

def mapWrite (addr : Word) (data : Word) (len : Nat) (map : Option IOMap) : OnBus Unit := do
  cAssert (decide (1 ≤ len) && decide (len ≤ 4))
  let map ← checkBound map addr
  let offset := addr - map.low
  modify fun bus => bus.store ⟨map.space, offset.toNat, len⟩ data
  invokeCallback map.callback offset len true

/-- The accesses that pass both checks. -/
theorem mapRead_run {map : IOMap} {addr : Word} {len : Nat} (hlen : 1 ≤ len ∧ len ≤ 4)
    (hin : mapInside map addr = true) (bus : Bus) :
    mapRead addr len (some map) bus =
      (invokeCallback map.callback (addr - map.low) len false >>= fun _ => do
        let bus ← get
        return bus.load ⟨map.space, (addr - map.low).toNat, 4⟩ &&& lenMask len) bus := by
  have hassert : (decide (1 ≤ len) && decide (len ≤ 4)) = true := by simp [hlen]
  have hbound : checkBound (some map) addr bus = .ok map bus := by
    rw [checkBound, hin]
    rfl
  rw [mapRead, hassert, bind_ok (cAssert_true_run bus), bind_ok hbound]

theorem mapWrite_run {map : IOMap} {addr : Word} {len : Nat} (hlen : 1 ≤ len ∧ len ≤ 4)
    (hin : mapInside map addr = true) (data : Word) (bus : Bus) :
    mapWrite addr data len (some map) bus =
      invokeCallback map.callback (addr - map.low) len true
        (bus.store ⟨map.space, (addr - map.low).toNat, len⟩ data) := by
  have hassert : (decide (1 ≤ len) && decide (len ≤ 4)) = true := by simp [hlen]
  have hbound : checkBound (some map) addr bus = .ok map bus := by
    rw [checkBound, hin]
    rfl
  rw [mapWrite, hassert, bind_ok (cAssert_true_run bus), bind_ok hbound]
  exact bind_ok (modify_run _ bus)

/-! ## Physical memory -/

/-- `register_pmem` -/
def registerPmem (base : Word) : IOMap :=
  { low := base, high := base + BitVec.ofNat 32 pmemSize - 1#32, space := .pmem, callback := none }

/-- A zeroed `pmem`, registered as `init_isa` does it on x86. -/
def Bus.zero : Bus :=
  { pmem := fun _ => 0, pmemMap := registerPmem 0, io := .zero, isSkipRef := false,
    skipRefCalls := 0 }

/-- `*(uint32_t *)(pmem + offset)`: four bytes, whatever `len` is. -/
def paddrReadAccess (map : IOMap) (addr : Word) : HostAccess :=
  ⟨.pmem, (addr - map.low).toNat, 4⟩

/-- `memcpy(pmem + offset, &data, len)` -/
def paddrWriteAccess (map : IOMap) (addr : Word) (len : Nat) : HostAccess :=
  ⟨.pmem, (addr - map.low).toNat, len⟩

def paddrRead (addr : Word) (len : Nat) : OnBus Word := do
  let bus ← get
  if mapInside bus.pmemMap addr then
    return bus.load (paddrReadAccess bus.pmemMap addr) &&& lenMask len
  else
    mapRead addr len (← fetchMmioMap addr)

def paddrWrite (addr : Word) (data : Word) (len : Nat) : OnBus Unit := do
  let bus ← get
  if mapInside bus.pmemMap addr then
    set (bus.store (paddrWriteAccess bus.pmemMap addr len) data)
  else
    mapWrite addr data len (← fetchMmioMap addr)

/-- `isa_vaddr_read` and `isa_vaddr_write` hand the address through. -/
abbrev vaddrRead := paddrRead

abbrev vaddrWrite := paddrWrite

/-! ## Relations that accesses keep -/

/-- A preorder that holds across the effects of a read. -/
class BusReads (B : Bus → Bus → Prop) : Prop extends IsPreorder Bus B where
  io : ∀ bus io, B bus { bus with io }
  skipRef : Within B difftestSkipRef

/-- A preorder that holds across the effects of an access. -/
class BusRel (B : Bus → Bus → Prop) : Prop extends IsPreorder Bus B where
  pmem : ∀ bus pmem, B bus { bus with pmem }
  io : ∀ bus io, B bus { bus with io }
  skipRef : Within B difftestSkipRef

/-- The map of `pmem` stays where it is registered. -/
def SameMap (bus bus' : Bus) : Prop := bus'.pmemMap = bus.pmemMap

instance : BusRel SameMap where
  refl _ := rfl
  trans _ _ _ h h' := h'.trans h
  pmem _ _ := rfl
  io _ _ := rfl
  skipRef _ := rfl

instance {B : Bus → Bus → Prop} [BusRel B] : BusReads B where
  io := BusRel.io
  skipRef := BusRel.skipRef

section BusReads

variable {B : Bus → Bus → Prop} [BusReads B]

theorem invokeCallback_within (c : Option IOCallback) (offset : Word) (len : Nat)
    (isWrite : Bool) : Within B (invokeCallback c offset len isWrite) := by
  cases c with
  | none => exact Within.pure _
  | some c =>
      intro bus
      unfold invokeCallback
      cases hrun : c.run offset len isWrite bus.io with
      | ok a io =>
          simp only [hrun]
          exact BusReads.io bus io
      | error e io =>
          simp only [hrun]
          exact BusReads.io bus io

theorem checkBound_within (map : Option IOMap) (addr : Word) : Within B (checkBound map addr) := by
  cases map with
  | none => exact Within.throw _
  | some map => exact (cAssert_within _).bind fun _ => Within.pure _

theorem fetchMmioMap_within (addr : Word) : Within B (fetchMmioMap addr) := by
  refine Within.get.bind fun bus => ?_
  unfold findMapByAddr
  cases bus.io.mmioMaps.find? (fun map => mapInside map addr) with
  | none => exact Within.pure _
  | some map => exact Within.bind BusReads.skipRef fun _ => Within.pure _

theorem paddrRead_within (addr : Word) (len : Nat) : Within B (paddrRead addr len) := by
  refine Within.get.bind fun bus => Within.ite (Within.pure _) ?_
  refine (fetchMmioMap_within addr).bind fun map => ?_
  refine (cAssert_within _).bind fun _ => (checkBound_within map addr).bind fun map => ?_
  refine (invokeCallback_within _ _ _ _).bind fun _ => ?_
  exact Within.get.bind fun bus => Within.pure _

end BusReads

section BusRel

variable {B : Bus → Bus → Prop} [BusRel B]

theorem store_within (a : HostAccess) (data : Word) (bus : Bus) : B bus (bus.store a data) := by
  unfold Bus.store
  cases a.space with
  | pmem => exact BusRel.pmem bus _
  | ioSpace base => exact BusRel.io bus _

theorem paddrWrite_within (addr data : Word) (len : Nat) :
    Within B (paddrWrite addr data len) := by
  intro bus
  have hmap : Within B (fetchMmioMap addr >>= mapWrite addr data len) := by
    refine (fetchMmioMap_within addr).bind fun map => ?_
    refine (cAssert_within _).bind fun _ => (checkBound_within map addr).bind fun map => ?_
    refine Within.bind (Within.modify fun bus => store_within _ data bus) fun _ => ?_
    exact invokeCallback_within _ _ _ _
  unfold paddrWrite
  rw [bind_ok (get_run bus)]
  split
  · exact store_within (B := B) (paddrWriteAccess bus.pmemMap addr len) data bus
  · exact hmap bus

end BusRel

/-! ## The `pmem` path -/

theorem paddrRead_pmem {bus : Bus} {addr : Word} (len : Nat)
    (h : mapInside bus.pmemMap addr = true) :
    paddrRead addr len bus =
      .ok (bus.load (paddrReadAccess bus.pmemMap addr) &&& lenMask len) bus := by
  simp only [paddrRead, bind_ok (get_run bus), h, if_true]
  rfl

theorem paddrWrite_pmem {bus : Bus} {addr : Word} (data : Word) (len : Nat)
    (h : mapInside bus.pmemMap addr = true) :
    paddrWrite addr data len bus =
      .ok () (bus.store (paddrWriteAccess bus.pmemMap addr len) data) := by
  simp only [paddrWrite, bind_ok (get_run bus), h, if_true]
  rfl

/-- The last address of a `pmem` that does not reach past the end of the address space. -/
theorem registerPmem_high {base : Word} (hbase : base.toNat + pmemSize ≤ 4294967296) :
    (registerPmem base).high.toNat = base.toNat + 134217727 := by
  have hsize : base.toNat + 134217728 ≤ 4294967296 := hbase
  have hlast : BitVec.ofNat 32 pmemSize - 1#32 = 134217727#32 := by decide
  have hsum : base + BitVec.ofNat 32 pmemSize - 1#32 = base + 134217727#32 := by
    rw [BitVec.sub_eq_add_neg, BitVec.add_assoc, ← BitVec.sub_eq_add_neg, hlast]
  have hfit : base.toNat + (134217727#32).toNat < 2 ^ 32 := by
    change base.toNat + 134217727 < 4294967296
    omega
  change (base + BitVec.ofNat 32 pmemSize - 1#32).toNat = _
  rw [hsum, BitVec.toNat_add_of_lt hfit]
  rfl

/-- `map_inside` on the registered map says that the offset is in `pmem`. -/
theorem mapInside_registerPmem {base addr : Word} (hbase : base.toNat + pmemSize ≤ 4294967296) :
    mapInside (registerPmem base) addr = true ↔ (addr - base).toNat < pmemSize := by
  have hsize : base.toNat + 134217728 ≤ 4294967296 := hbase
  have hlow : (registerPmem base).low = base := rfl
  have haddr := addr.isLt
  rw [mapInside, Bool.and_eq_true, decide_eq_true_eq, decide_eq_true_eq, hlow, BitVec.le_def,
    BitVec.le_def, registerPmem_high hbase, BitVec.toNat_sub, pmemSize_eq]
  omega

end Nemu
