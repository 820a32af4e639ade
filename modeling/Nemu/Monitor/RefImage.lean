import Nemu.Isa
import Nemu.Memory.Paddr

/-!
# The image of the reference design

`init_difftest` copies the guest program into a reference design that is NEMU itself
(`src/monitor/diff-test/ref.c`).  The destination is the guest address `PC_START`, which
`guest_to_host` takes as an offset into `pmem`, while `paddr_read` subtracts the base with which
`pmem` is registered.
-/

namespace Nemu

open LittleEndian StateRules

/-- What `init_isa` does to memory. -/
def initIsa (isa : Isa) : OnBus Unit :=
  modify fun bus => { bus with pmemMap := registerPmem isa.pmemBase }

/-! ## Host memory -/

/-- An index into `pmem`. -/
def guestToHost (p : Word) : Nat := p.toNat

/-- `load_img`, given the bytes of the file. -/
def loadImg (image : List Byte) : OnBus Unit :=
  modify fun bus => { bus with pmem := memcpy bus.pmem (guestToHost imageStart) image }

/-- The `n` bytes of `pmem` from an index on. -/
def Bus.hostBytes (bus : Bus) (start n : Nat) : List Byte :=
  (List.range n).map fun i => bus.pmem (start + i)

/-! ## ref.c -/

/-- The bytes that `difftest_memcpy_from_dut` writes. -/
def memcpyFromDutAccess (dest : Word) (n : Nat) : HostAccess := ⟨.pmem, guestToHost dest, n⟩

def difftestMemcpyFromDut (dest : Word) (src : List Byte) : OnBus Unit :=
  modify fun bus => { bus with pmem := memcpy bus.pmem (guestToHost dest) src }

/-- `difftest_init` -/
abbrev difftestInit := initIsa

/-- The calls of `init_difftest` on the reference design that touch memory, for an image of
`imgSize` bytes. -/
def initDifftest (isa : Isa) (dut : Bus) (imgSize : Nat) : OnBus Unit := do
  difftestInit isa
  difftestMemcpyFromDut isa.pcStart (dut.hostBytes (guestToHost imageStart) imgSize)

/-! ## Reading the image -/

theorem Isa.pmemBase_le (isa : Isa) : isa.pmemBase.toNat + pmemSize ≤ 4294967296 := by
  cases isa <;> decide

/-- A byte of `pmem` through `paddr_read`. -/
theorem paddrRead_byte {bus : Bus} {base : Word} (hmap : bus.pmemMap = registerPmem base)
    (hbase : base.toNat + pmemSize ≤ 4294967296) {addr : Word}
    (hin : (addr - base).toNat < pmemSize) :
    paddrRead addr 1 bus = .ok ((bus.pmem (addr - base).toNat).setWidth 32) bus := by
  have hinside : mapInside bus.pmemMap addr = true := by
    rw [hmap]
    exact (mapInside_registerPmem hbase).2 hin
  have hvalue : bus.load (paddrReadAccess bus.pmemMap addr) &&& lenMask 1 =
      load bus.pmem (addr - base).toNat 1 := by
    rw [hmap]
    exact load_four_and_mask _ _ _ (by decide)
  rw [paddrRead_pmem 1 hinside, hvalue, load_one]

/-- The offset at which byte `i` of the image is read. -/
theorem Isa.pcStart_offset (isa : Isa) {i : Nat} (hi : i < pmemSize - guestToHost imageStart) :
    (isa.pcStart + BitVec.ofNat 32 i - isa.pmemBase).toNat = guestToHost imageStart + i ∧
      guestToHost imageStart + i < pmemSize := by
  have hstart : guestToHost imageStart = 1048576 := rfl
  have hsize := pmemSize_eq
  -- `PC_START` is the base plus `IMAGE_START`
  have hpc : isa.pcStart.toNat = isa.pmemBase.toNat + 1048576 := by cases isa <;> rfl
  have hle := isa.pmemBase_le
  rw [BitVec.toNat_sub, BitVec.toNat_add, BitVec.toNat_ofNat]
  omega

theorem paddrRead_image (isa : Isa) {image : List Byte}
    (hfits : image.length ≤ pmemSize - guestToHost imageStart) {bus : Bus}
    (hmap : bus.pmemMap = registerPmem isa.pmemBase) {i : Nat} (hi : i < image.length)
    (hbyte : bus.pmem (guestToHost imageStart + i) = image[i]) :
    paddrRead (isa.pcStart + BitVec.ofNat 32 i) 1 bus = .ok (image[i].setWidth 32) bus := by
  rcases isa.pcStart_offset (Nat.lt_of_lt_of_le hi hfits) with ⟨hoff, hin⟩
  rw [paddrRead_byte hmap isa.pmemBase_le (hoff ▸ hin), hoff, hbyte]

/-- What `init_difftest` is for: the copy stays in `pmem`, and the reference design reads the image
where the DUT reads it. -/
structure SameImage (isa : Isa) (n : Nat) (dut ref : Bus) : Prop where
  inside : ∀ i ∈ (memcpyFromDutAccess isa.pcStart n).indices, i < pmemSize
  reads : ∀ i < n, ∃ v, paddrRead (isa.pcStart + BitVec.ofNat 32 i) 1 dut = .ok v dut ∧
    paddrRead (isa.pcStart + BitVec.ofNat 32 i) 1 ref = .ok v ref

theorem hostBytes_loaded (f : Nat → Byte) (bus : Bus) (start : Nat) (image : List Byte)
    (h : bus.pmem = memcpy f start image) : bus.hostBytes start image.length = image := by
  refine List.ext_getElem (by simp [Bus.hostBytes]) fun i hi hi' => ?_
  simp only [Bus.hostBytes, List.getElem_map, List.getElem_range, h]
  exact memcpy_get start hi'

/-- Only where `pmem` is registered at 0, or where nothing is copied. -/
theorem sameImage_iff (isa : Isa) {image : List Byte}
    (hfits : image.length ≤ pmemSize - guestToHost imageStart) (dut ref : Bus) :
    ∃ dut' ref', (loadImg image >>= fun _ => initIsa isa) dut = .ok ⟨⟩ dut' ∧
      initDifftest isa dut' image.length ref = .ok ⟨⟩ ref' ∧
      (SameImage isa image.length dut' ref' ↔ isa = .x86 ∨ image = []) := by
  let dut' : Bus := { dut with
    pmem := memcpy dut.pmem (guestToHost imageStart) image
    pmemMap := registerPmem isa.pmemBase }
  let ref' : Bus := { ref with
    pmem := memcpy ref.pmem (guestToHost isa.pcStart)
      (dut'.hostBytes (guestToHost imageStart) image.length)
    pmemMap := registerPmem isa.pmemBase }
  have hsrc : dut'.hostBytes (guestToHost imageStart) image.length = image :=
    hostBytes_loaded dut.pmem dut' _ image rfl
  have hstart : guestToHost imageStart = 1048576 := rfl
  have hsize := pmemSize_eq
  refine ⟨dut', ref', rfl, rfl, fun h => ?_, ?_⟩
  · by_cases hempty : image = []
    · exact .inr hempty
    · -- the first byte of a copy already goes behind `pmem` where the base is not 0
      have hpos := List.length_pos_iff.2 hempty
      have hfirst := h.inside (guestToHost isa.pcStart)
        (HostAccess.mem_indices.2 ⟨Nat.le_refl _, Nat.lt_add_of_pos_right hpos⟩)
      cases isa with
      | x86 => exact .inl rfl
      | riscv32 => exact absurd hfirst (by decide)
      | mips32 => exact absurd hfirst (by decide)
  · rintro (rfl | rfl)
    · -- on x86 the index and the guest address are the same number
      refine ⟨fun i hi => ?_, fun i hi => ⟨image[i].setWidth 32, ?_, ?_⟩⟩
      · have hrange := (HostAccess.mem_indices.1 hi).2
        change i < guestToHost imageStart + image.length at hrange
        omega
      · exact paddrRead_image .x86 hfits rfl hi (memcpy_get _ hi)
      · refine paddrRead_image .x86 hfits rfl hi ?_
        change memcpy ref.pmem (guestToHost imageStart) _ (guestToHost imageStart + i) = _
        rw [hsrc]
        exact memcpy_get _ hi
    · -- nothing is copied, and nothing is read
      refine ⟨fun i hi => ?_, fun i hi => absurd hi (Nat.not_lt_zero i)⟩
      rcases HostAccess.mem_indices.1 hi with ⟨hlow, hhigh⟩
      exact absurd hhigh (Nat.not_lt.2 hlow)

theorem sameImage_iff_x86 :
    ∃ dut ref, (loadImg [0xd6] >>= fun _ => initIsa .x86) Bus.zero = .ok ⟨⟩ dut ∧
      initDifftest .x86 dut 1 Bus.zero = .ok ⟨⟩ ref ∧ SameImage .x86 1 dut ref := by
  have hfits : [(0xd6 : Byte)].length ≤ pmemSize - guestToHost imageStart := by decide
  rcases sameImage_iff .x86 hfits Bus.zero Bus.zero with ⟨dut, ref, hdut, href, hiff⟩
  exact ⟨dut, ref, hdut, href, hiff.2 (.inl rfl)⟩

/-- `nemu_trap` as the image on riscv32: the copy goes to `pmem + 0x80100000`. -/
theorem riscv32_image_outside :
    ∃ dut ref, (loadImg [0x6b, 0, 0, 0] >>= fun _ => initIsa .riscv32) Bus.zero = .ok ⟨⟩ dut ∧
      initDifftest .riscv32 dut 4 Bus.zero = .ok ⟨⟩ ref ∧ ¬ SameImage .riscv32 4 dut ref := by
  refine ⟨_, _, rfl, rfl, fun h => ?_⟩
  have hfirst := h.inside 0x80100000 (HostAccess.mem_indices.2 ⟨by decide, by decide⟩)
  exact absurd hfirst (by decide)

end Nemu
