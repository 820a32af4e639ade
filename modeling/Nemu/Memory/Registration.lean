import Mathlib.Data.List.Pairwise
import Mathlib.Data.Nat.Basic
import Nemu.Lib.Regions
import Nemu.Memory.Paddr

/-!
# Registration of devices

`new_space` of `src/device/io/map.c` hands out `io_space` page by page, and each device maps the
range it got to addresses with `add_pio_map` and `add_mmio_map`.  The ranges of two devices have no
byte in common, but nothing keeps a write that starts in one of them from ending behind it.
-/

namespace Nemu

open LittleEndian Regions StateRules

/-! ## new_space -/

def ioSpaceMax : Nat := 1024 * 1024

def pageSize : Nat := 4096

/-- The statics that are written while devices are registered; `p_space` as an index of
`io_space`. -/
structure IOInit where
  io : IOState
  pSpace : Nat

def IOInit.zero : IOInit := { io := .zero, pSpace := 0 }

abbrev OnInit := EStateM Fault IOInit

/-- The size rounded up to whole pages. -/
def pageRound (size : Nat) : Nat := (size + (pageSize - 1)) / pageSize * pageSize

theorem le_pageRound (size : Nat) : size ≤ pageRound size := by
  unfold pageRound pageSize
  omega

def newSpace (size : Nat) : OnInit Nat := do
  let p := (← get).pSpace
  modify fun s => { s with pSpace := s.pSpace + pageRound size }
  -- tested behind the move, so that `io_space` is never filled to its end
  cAssert (decide ((← get).pSpace < ioSpaceMax))
  return p

/-! ## Maps -/

def nrMap : Nat := 8

def portIoSpaceMax : Nat := 65535

/-- The map that both `add_mmio_map` and `add_pio_map` build. -/
def deviceMap (addr : Word) (space len : Nat) (callback : Option IOCallback) : IOMap :=
  { low := addr, high := addr + BitVec.ofNat 32 len - 1, space := .ioSpace space, callback }

def addMmioMap (addr : Word) (space len : Nat) (callback : Option IOCallback) : OnInit Unit := do
  cAssert (decide ((← get).io.mmioMaps.length < nrMap))
  modify fun s =>
    { s with
      io := { s.io with mmioMaps := s.io.mmioMaps ++ [deviceMap addr space len callback] } }

def addPioMap (addr : BitVec 16) (space len : Nat) (callback : Option IOCallback) :
    OnInit Unit := do
  cAssert (decide ((← get).io.pioMaps.length < nrMap))
  -- only port addresses are tested
  cAssert (decide (addr.toNat + len ≤ portIoSpaceMax))
  modify fun s =>
    { s with
      io := { s.io with
        pioMaps := s.io.pioMaps ++ [deviceMap (addr.setWidth 32) space len callback] } }

/-! ## Devices -/

/-- How a device registers itself: one space, and a map to it in either address space. -/
structure Registration where
  len : Nat
  pio : Option (BitVec 16 × Option IOCallback)
  mmio : Option (Word × Option IOCallback)

/-- A registered device: where its space starts, and its maps. -/
structure Device where
  base : Nat
  len : Nat
  maps : List IOMap

def Device.Owns (d : Device) (i : Nat) : Prop := d.base ≤ i ∧ i < d.base + d.len

/-- No byte belongs to both. -/
def Device.Apart (d d' : Device) : Prop := ∀ i, d.Owns i → ¬ d'.Owns i

instance : Std.Symm Device.Apart := ⟨fun _ _ h i hi' hi => h i hi hi'⟩

def registerPio (r : Registration) (space : Nat) : OnInit (List IOMap) :=
  match r.pio with
  | some (addr, callback) => do
      addPioMap addr space r.len callback
      return [deviceMap (addr.setWidth 32) space r.len callback]
  | none => return []

def registerMmio (r : Registration) (space : Nat) : OnInit (List IOMap) :=
  match r.mmio with
  | some (addr, callback) => do
      addMmioMap addr space r.len callback
      return [deviceMap addr space r.len callback]
  | none => return []

def register (r : Registration) : OnInit Device := do
  let space ← newSpace r.len
  let pio ← registerPio r space
  let mmio ← registerMmio r space
  return { base := space, len := r.len, maps := pio ++ mmio }

def registerAll : List Registration → OnInit (List Device)
  | [] => return []
  | r :: rs => do
      let d ← register r
      return d :: (← registerAll rs)

theorem registerAll_cons {r : Registration} {rs : List Registration} {d : Device}
    {devs : List Device} {s s₁ s₂ : IOInit} (h : register r s = .ok d s₁)
    (hs : registerAll rs s₁ = .ok devs s₂) : registerAll (r :: rs) s = .ok (d :: devs) s₂ := by
  rw [registerAll, bind_ok h]
  exact bind_ok hs

/-! ## What one registration does -/

/-- All maps, of both address spaces. -/
def IOInit.maps (s : IOInit) : List IOMap := s.io.pioMaps ++ s.io.mmioMaps

theorem newSpace_ok {size p : Nat} {s s' : IOInit} (h : newSpace size s = .ok p s') :
    p = s.pSpace ∧ s' = { s with pSpace := s.pSpace + pageRound size } ∧
      s'.pSpace < ioSpaceMax := by
  rw [newSpace, bind_ok (get_run s)] at h
  rcases bind_eq_ok.1 h with ⟨_, s₁, hmod, h₁⟩
  cases hmod
  rw [bind_ok (get_run _)] at h₁
  rcases bind_eq_ok.1 h₁ with ⟨_, s₂, hassert, hpure⟩
  rcases cAssert_eq_ok.1 hassert with ⟨hlt, rfl⟩
  cases hpure
  exact ⟨rfl, rfl, of_decide_eq_true hlt⟩

theorem newSpace_run {size p : Nat} {s : IOInit} (hp : s.pSpace + pageRound size = p)
    (hlt : p < ioSpaceMax) : newSpace size s = .ok s.pSpace { s with pSpace := p } := by
  have hassert : decide (s.pSpace + pageRound size < ioSpaceMax) = true := by
    rw [hp]
    exact decide_eq_true hlt
  rw [newSpace, bind_ok (get_run s), bind_ok (modify_run _ s), bind_ok (get_run _), hassert, hp]
  rfl

theorem registerPio_ok {r : Registration} {space : Nat} {l : List IOMap} {s s' : IOInit}
    (h : registerPio r space s = .ok l s') :
    s'.pSpace = s.pSpace ∧ s'.io.pioMaps = s.io.pioMaps ++ l ∧ s'.io.mmioMaps = s.io.mmioMaps ∧
      ∀ map ∈ l, map.space = .ioSpace space := by
  unfold registerPio at h
  cases hr : r.pio with
  | none =>
      rw [hr] at h
      cases h
      exact ⟨rfl, (List.append_nil _).symm, rfl, by simp⟩
  | some entry =>
      rw [hr] at h
      rcases bind_eq_ok.1 h with ⟨_, s₁, hadd, hpure⟩
      cases hpure
      rw [addPioMap, bind_ok (get_run s)] at hadd
      rcases bind_eq_ok.1 hadd with ⟨_, s₂, hassert, hadd₂⟩
      rcases cAssert_eq_ok.1 hassert with ⟨-, rfl⟩
      rcases bind_eq_ok.1 hadd₂ with ⟨_, s₃, hassert, hmod⟩
      rcases cAssert_eq_ok.1 hassert with ⟨-, rfl⟩
      cases hmod
      refine ⟨rfl, rfl, rfl, fun map hmap => ?_⟩
      rw [List.mem_singleton.1 hmap]
      rfl

theorem registerMmio_ok {r : Registration} {space : Nat} {l : List IOMap} {s s' : IOInit}
    (h : registerMmio r space s = .ok l s') :
    s'.pSpace = s.pSpace ∧ s'.io.mmioMaps = s.io.mmioMaps ++ l ∧ s'.io.pioMaps = s.io.pioMaps ∧
      ∀ map ∈ l, map.space = .ioSpace space := by
  unfold registerMmio at h
  cases hr : r.mmio with
  | none =>
      rw [hr] at h
      cases h
      exact ⟨rfl, (List.append_nil _).symm, rfl, by simp⟩
  | some entry =>
      rw [hr] at h
      rcases bind_eq_ok.1 h with ⟨_, s₁, hadd, hpure⟩
      cases hpure
      rw [addMmioMap, bind_ok (get_run s)] at hadd
      rcases bind_eq_ok.1 hadd with ⟨_, s₂, hassert, hmod⟩
      rcases cAssert_eq_ok.1 hassert with ⟨-, rfl⟩
      cases hmod
      refine ⟨rfl, rfl, rfl, fun map hmap => ?_⟩
      rw [List.mem_singleton.1 hmap]
      rfl

/-- A new device gets the space from `p_space` on, and `p_space` moves behind it. -/
structure Registers (s : IOInit) (d : Device) (s' : IOInit) : Prop where
  base : d.base = s.pSpace
  fits : d.base + d.len ≤ s'.pSpace
  bound : s'.pSpace < ioSpaceMax
  space : ∀ map ∈ d.maps, map.space = .ioSpace d.base
  maps : ∀ map, map ∈ s'.maps ↔ map ∈ s.maps ∨ map ∈ d.maps

theorem register_ok {r : Registration} {d : Device} {s s' : IOInit}
    (h : register r s = .ok d s') : Registers s d s' := by
  rcases bind_eq_ok.1 h with ⟨space, s₁, hspace, h₁⟩
  rcases bind_eq_ok.1 h₁ with ⟨pio, s₂, hpio, h₂⟩
  rcases bind_eq_ok.1 h₂ with ⟨mmio, s₃, hmmio, hpure⟩
  cases hpure
  rcases newSpace_ok hspace with ⟨rfl, rfl, hbound⟩
  rcases registerPio_ok hpio with ⟨hp₂, hpioMaps₂, hmmioMaps₂, hspace₂⟩
  rcases registerMmio_ok hmmio with ⟨hp₃, hmmioMaps₃, hpioMaps₃, hspace₃⟩
  refine ⟨rfl, ?_, ?_, ?_, ?_⟩
  · -- the maps leave `p_space` where `new_space` has put it
    rw [hp₃, hp₂]
    exact Nat.add_le_add_left (le_pageRound r.len) _
  · rw [hp₃, hp₂]
    exact hbound
  · intro map hmap
    rcases List.mem_append.1 hmap with hmap | hmap
    · exact hspace₂ map hmap
    · exact hspace₃ map hmap
  · intro map
    simp only [IOInit.maps, hmmioMaps₃, hpioMaps₃, hpioMaps₂, hmmioMaps₂, List.mem_append]
    grind

/-! ## All devices -/

/-- The devices of a run of registrations lie one behind the other, and every new map belongs to
one of them. -/
structure RegistersAll (s : IOInit) (devs : List Device) (s' : IOInit) : Prop where
  behind : ∀ d ∈ devs, s.pSpace ≤ d.base
  fits : ∀ d ∈ devs, d.base + d.len ≤ s'.pSpace
  grows : s.pSpace ≤ s'.pSpace
  apart : devs.Pairwise fun d d' => d.base + d.len ≤ d'.base
  space : ∀ d ∈ devs, ∀ map ∈ d.maps, map.space = .ioSpace d.base
  maps : ∀ map ∈ s'.maps, map ∈ s.maps ∨ ∃ d ∈ devs, map ∈ d.maps

def Device.region (d : Device) : Region Nat := ⟨d.base, d.len⟩

section Run

variable {rs : List Registration} {devs : List Device} {s s' : IOInit}

/-- `p_space` is a pointer that is bumped. -/
theorem registerAll_bumps (h : registerAll rs s = .ok devs s') :
    Bumps s.pSpace (devs.map Device.region) s'.pSpace := by
  induction rs generalizing s devs with
  | nil =>
      cases h
      exact .nil _
  | cons r rs ih =>
      rcases bind_eq_ok.1 h with ⟨d, s₁, hone, h₁⟩
      rcases bind_eq_ok.1 h₁ with ⟨ds, s₂, hrest, hpure⟩
      cases hpure
      have hd := register_ok hone
      have hfits : s.pSpace + d.len ≤ s₁.pSpace := by
        rw [← hd.base]
        exact hd.fits
      refine .cons hd.base (Nat.le_of_add_right_le hfits) ?_ (ih hrest)
      exact hfits

/-- Every new map belongs to a new device, and gives access to its space. -/
theorem registerAll_maps (h : registerAll rs s = .ok devs s') :
    (∀ d ∈ devs, ∀ map ∈ d.maps, map.space = .ioSpace d.base) ∧
      ∀ map ∈ s'.maps, map ∈ s.maps ∨ ∃ d ∈ devs, map ∈ d.maps := by
  induction rs generalizing s devs with
  | nil =>
      cases h
      exact ⟨by simp, fun map hmap => .inl hmap⟩
  | cons r rs ih =>
      rcases bind_eq_ok.1 h with ⟨d, s₁, hone, h₁⟩
      rcases bind_eq_ok.1 h₁ with ⟨ds, s₂, hrest, hpure⟩
      cases hpure
      have hd := register_ok hone
      rcases ih hrest with ⟨hspace, hmaps⟩
      refine ⟨fun d' hd' => ?_, fun map hmap => ?_⟩
      · rcases List.mem_cons.1 hd' with rfl | hmem
        · exact hd.space
        · exact hspace d' hmem
      · rcases hmaps map hmap with hold | ⟨d', hmem, hmap'⟩
        · rcases (hd.maps map).1 hold with hold | hnew
          · exact .inl hold
          · exact .inr ⟨d, List.mem_cons_self, hnew⟩
        · exact .inr ⟨d', List.mem_cons_of_mem d hmem, hmap'⟩

theorem registerAll_ok (h : registerAll rs s = .ok devs s') : RegistersAll s devs s' := by
  have hbumps := registerAll_bumps h
  have hbetween : ∀ d ∈ devs, s.pSpace ≤ d.base ∧ d.base + d.len ≤ s'.pSpace :=
    fun d hd => hbumps.between d.region (List.mem_map_of_mem hd)
  rcases registerAll_maps h with ⟨hspace, hmaps⟩
  exact
    { behind := fun d hd => (hbetween d hd).1
      fits := fun d hd => (hbetween d hd).2
      grows := hbumps.le
      apart := List.pairwise_map.1 hbumps.apart
      space := hspace
      maps := hmaps }

theorem RegistersAll.disjoint (h : RegistersAll s devs s') {d d' : Device} (hd : d ∈ devs)
    (hd' : d' ∈ devs) (hne : d ≠ d') : d.Apart d' := by
  have hapart : devs.Pairwise Device.Apart := by
    refine h.apart.imp fun hle i hi hi' => ?_
    have hlt := hi.2
    have hge := hi'.1
    omega
  exact hapart.forall hd hd' hne

end Run

/-! ## Writes -/

/-- A write to a map of `d` changes bytes of `d` alone. -/
structure Isolated (devs : List Device) (d : Device) (bus bus' : Bus) : Prop where
  own : ∀ i, bus'.io.ioSpace i ≠ bus.io.ioSpace i → d.Owns i
  others : ∀ d' ∈ devs, d' ≠ d → ∀ i, d'.Owns i → bus'.io.ioSpace i = bus.io.ioSpace i

/-- A write that passes the checks stays in its device's space if and only if it does not end
behind it, or writes there what is there already. -/
theorem mapWrite_isolated_iff {rs : List Registration} {devs : List Device} {s : IOInit}
    (hreg : registerAll rs .zero = .ok devs s) {d : Device} (hd : d ∈ devs) {map : IOMap}
    (hmap : map ∈ d.maps) {addr : Word} {len : Nat} (hlen : 1 ≤ len ∧ len ≤ 4)
    (hin : mapInside map addr = true) (data : Word) (bus : Bus) :
    ∃ bus', mapWrite addr data len (some map) bus =
        invokeCallback map.callback (addr - map.low) len true bus' ∧
      (Isolated devs d bus bus' ↔
        ∀ k < len, d.len ≤ (addr - map.low).toNat + k →
          bus.io.ioSpace (d.base + (addr - map.low).toNat + k) = byteOf data k) := by
  have hall := registerAll_ok hreg
  let offset := (addr - map.low).toNat
  have hspace : ∀ i, (bus.store ⟨map.space, offset, len⟩ data).io.ioSpace i =
      store bus.io.ioSpace (d.base + offset) len data i := by
    rw [hall.space d hd map hmap]
    exact fun _ => rfl
  refine ⟨_, mapWrite_run hlen hin data bus, fun h k hk hbehind => ?_, fun h => ?_⟩
  · by_contra hne
    -- behind the device: such a byte would have changed
    have hstored : (bus.store ⟨map.space, offset, len⟩ data).io.ioSpace (d.base + offset + k) =
        byteOf data k := by
      rw [hspace, store_apply, if_pos (by omega), Nat.add_sub_cancel_left]
    have howns := h.own (d.base + offset + k) (fun heq => hne (heq.symm.trans hstored))
    have hlt := howns.2
    omega
  · have hown : ∀ i, (bus.store ⟨map.space, offset, len⟩ data).io.ioSpace i ≠
        bus.io.ioSpace i → d.Owns i := by
      intro i hchanged
      rw [hspace, store_apply] at hchanged
      split at hchanged
      case isTrue hrange =>
        -- byte `k` of the data
        obtain ⟨k, rfl⟩ := Nat.exists_eq_add_of_le hrange.1
        rw [Nat.add_sub_cancel_left] at hchanged
        have hinside : offset + k < d.len := by
          -- a byte behind the device was there already
          by_contra hge
          exact hchanged (h k (by omega) (Nat.not_lt.1 hge)).symm
        exact ⟨by omega, by omega⟩
      case isFalse => exact absurd rfl hchanged
    refine ⟨hown, fun d' hd' hne i hi => ?_⟩
    by_contra hchanged
    exact hall.disjoint hd hd' (fun heq => hne heq.symm) i (hown i hchanged) hi

/-! ## The devices of the program -/

/-- The one device of a build without `HAS_IOE`. -/
def initArgsrom : Registration := { len := 4096, pio := none, mmio := some (0xa2000000, none) }

def initSerial : Registration :=
  { len := 1, pio := some (0x3f8, some .serialChIoHandler),
    mmio := some (0xa10003f8, some .serialChIoHandler) }

def initTimer : Registration :=
  { len := 4, pio := some (0x48, some .rtcIoHandler), mmio := some (0xa1000048, some .rtcIoHandler) }

/-- `init_vga` registers two devices. -/
def initVga : List Registration :=
  [{ len := 8, pio := some (0x100, some .vgaIoHandler),
     mmio := some (0xa1000100, some .vgaIoHandler) },
   { len := 0x80000, pio := none, mmio := some (0xa0000000, none) }]

def initI8042 : Registration :=
  { len := 4, pio := some (0x60, some .i8042DataIoHandler),
    mmio := some (0xa1000060, some .i8042DataIoHandler) }

/-- `init_device` with `HAS_IOE`. -/
def initDevice : List Registration :=
  [initArgsrom, initSerial, initTimer] ++ initVga ++ [initI8042]

def argsrom : Device :=
  { base := 0, len := 4096, maps := [⟨0xa2000000, 0xa2000fff, .ioSpace 0, none⟩] }

def serial : Device :=
  { base := 4096, len := 1
    maps := [⟨0x3f8, 0x3f8, .ioSpace 4096, some .serialChIoHandler⟩,
      ⟨0xa10003f8, 0xa10003f8, .ioSpace 4096, some .serialChIoHandler⟩] }

/-- The first two devices, as `init_device` registers them. -/
theorem initArgsrom_initSerial :
    ∃ s, registerAll [initArgsrom, initSerial] .zero = .ok [argsrom, serial] s :=
  ⟨_, registerAll_cons (bind_ok (newSpace_run (p := 4096) (by decide) (by decide)))
    (registerAll_cons (bind_ok (newSpace_run (p := 8192) (by decide) (by decide))) rfl)⟩

/-- A byte at the end of argsrom. -/
theorem mapWrite_isolated_iff_argsrom :
    ∃ bus', mapWrite 0xa2000fff 7 1 (some ⟨0xa2000000, 0xa2000fff, .ioSpace 0, none⟩) Bus.zero =
        invokeCallback none 0xfff 1 true bus' ∧
      Isolated [argsrom, serial] argsrom Bus.zero bus' := by
  rcases initArgsrom_initSerial with ⟨s, hrun⟩
  rcases @mapWrite_isolated_iff _ _ _ hrun argsrom List.mem_cons_self _ List.mem_cons_self
    0xa2000fff 1 (by decide) (by decide) 7 Bus.zero with ⟨bus', hwrite, hiff⟩
  exact ⟨bus', hwrite, hiff.2 (by decide)⟩

/-- Four bytes there: the second one lands in the register of the serial port. -/
theorem argsrom_write_reaches_serial :
    ∃ s bus', registerAll [initArgsrom, initSerial] .zero = .ok [argsrom, serial] s ∧
      mapWrite 0xa2000fff 0x44434241 4 (some ⟨0xa2000000, 0xa2000fff, .ioSpace 0, none⟩) Bus.zero =
        .ok ⟨⟩ bus' ∧
      ¬ Isolated [argsrom, serial] argsrom Bus.zero bus' := by
  rcases initArgsrom_initSerial with ⟨s, hrun⟩
  refine ⟨s, _, hrun, rfl, fun h => ?_⟩
  have hne : serial ≠ argsrom := fun heq => absurd (congrArg Device.len heq) (by decide)
  have hkept := h.others serial (by simp) hne 4096 ⟨by decide, by decide⟩
  exact absurd hkept (by decide)

end Nemu
