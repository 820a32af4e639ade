import Nemu.Memory.Registration

/-!
# init_device

`init_device` of `src/device/device.c` with `HAS_IOE`: each device takes a space, leaves the pointer
to it in a static of its own, writes what the guest finds there first, and maps the space.  The
windows of SDL and the timer signal are not part of it.
-/

namespace Nemu
namespace Ioe

open StateRules

/-! ## The devices -/

def modifyIO (f : IOState → IOState) : OnInit Unit :=
  modify fun s => { s with io := f s.io }

/-- A device that is mapped as memory; `start` gets the pointer to its space. -/
def initMemory (len : Nat) (start : Nat → IOState → IOState) (mmio : Word) : OnInit Unit := do
  let base ← newSpace len
  modifyIO (start base)
  addMmioMap mmio base len none

/-- A device with a handler, which is mapped in both address spaces. -/
def initPort (len : Nat) (start : Nat → IOState → IOState) (pio : BitVec 16) (mmio : Word)
    (callback : IOCallback) : OnInit Unit := do
  let base ← newSpace len
  modifyIO (start base)
  addPioMap pio base len (some callback)
  addMmioMap mmio base len (some callback)

/-- `strcpy` copies the terminator as well. -/
def initArgsrom (mainargs : List Byte) : OnInit Unit :=
  initMemory 4096
    (fun argsromBase io =>
      { io with ioSpace := memcpy io.ioSpace argsromBase (mainargs ++ [0]) }) 0xa2000000

def initSerial : OnInit Unit :=
  initPort 1 (fun serialChBase io => { io with serialChBase }) 0x3f8 0xa10003f8 .serialChIoHandler

def initTimer : OnInit Unit :=
  initPort 4 (fun rtcPortBase io => { io with rtcPortBase }) 0x48 0xa1000048 .rtcIoHandler

def screenW : Word := 400

def screenH : Word := 300

def initVga : OnInit Unit := do
  initPort 8
    (fun screensizePortBase io => io.setPort screensizePortBase ((screenW <<< 16) ||| screenH))
    0x100 0xa1000100 .vgaIoHandler
  initMemory 0x80000 (fun _ io => io) 0xa0000000

def initI8042 : OnInit Unit :=
  initPort 4
    (fun i8042DataPortBase io =>
      { io.setPort i8042DataPortBase keyNone with i8042DataPortBase }) 0x60 0xa1000060
    .i8042DataIoHandler

def initDevice (mainargs : List Byte) : OnInit Unit := do
  initArgsrom mainargs
  initSerial
  initTimer
  initVga
  initI8042

/-! ## What registration does -/

section Run

variable {len : Nat} {start : Nat → IOState → IOState} {mmio : Word} {s : IOInit}

theorem modifyIO_run (f : IOState → IOState) (s : IOInit) :
    modifyIO f s = .ok ⟨⟩ { s with io := f s.io } := rfl

theorem addMmioMap_run {space : Nat} {callback : Option IOCallback}
    (hroom : s.io.mmioMaps.length < nrMap) :
    addMmioMap mmio space len callback s = .ok ⟨⟩ { s with
      io := { s.io with mmioMaps := s.io.mmioMaps ++ [deviceMap mmio space len callback] } } := by
  rw [addMmioMap, bind_ok (get_run s), decide_eq_true hroom, bind_ok (cAssert_true_run s)]
  rfl

theorem addPioMap_run {pio : BitVec 16} {space : Nat} {callback : Option IOCallback}
    (hroom : s.io.pioMaps.length < nrMap) (hport : pio.toNat + len ≤ portIoSpaceMax) :
    addPioMap pio space len callback s = .ok ⟨⟩ { s with
      io := { s.io with
        pioMaps := s.io.pioMaps ++ [deviceMap (pio.setWidth 32) space len callback] } } := by
  rw [addPioMap, bind_ok (get_run s), decide_eq_true hroom, bind_ok (cAssert_true_run s),
    decide_eq_true hport, bind_ok (cAssert_true_run s)]
  rfl

variable {io : IOState} {p q : Nat}

theorem initMemory_run (hp : q + pageRound len = p) (hlt : p < ioSpaceMax)
    (hroom : (start q io).mmioMaps.length < nrMap) :
    initMemory len start mmio ⟨io, q⟩ = .ok ⟨⟩ ⟨{ start q io with
      mmioMaps := (start q io).mmioMaps ++ [deviceMap mmio q len none] }, p⟩ := by
  have hspace : newSpace len ⟨io, q⟩ = .ok q ⟨io, p⟩ := newSpace_run hp hlt
  rw [initMemory, bind_ok hspace, bind_ok (modifyIO_run _ _)]
  exact addMmioMap_run hroom

theorem initPort_run {pio : BitVec 16} {callback : IOCallback}
    (hp : q + pageRound len = p) (hlt : p < ioSpaceMax)
    (hroom : (start q io).pioMaps.length < nrMap ∧ (start q io).mmioMaps.length < nrMap)
    (hport : pio.toNat + len ≤ portIoSpaceMax) :
    initPort len start pio mmio callback ⟨io, q⟩ = .ok ⟨⟩ ⟨{ start q io with
      pioMaps := (start q io).pioMaps ++ [deviceMap (pio.setWidth 32) q len (some callback)]
      mmioMaps := (start q io).mmioMaps ++ [deviceMap mmio q len (some callback)] }, p⟩ := by
  have hspace : newSpace len ⟨io, q⟩ = .ok q ⟨io, p⟩ := newSpace_run hp hlt
  rw [initPort, bind_ok hspace, bind_ok (modifyIO_run _ _),
    bind_ok (addPioMap_run hroom.1 hport)]
  exact addMmioMap_run hroom.2

end Run

/-! ## Where everything is -/

/-- The statics behind `init_device`. -/
def initialized (mainargs : List Byte) (io : IOState) : IOState :=
  { io with
    ioSpace :=
      LittleEndian.store
        (LittleEndian.store (memcpy io.ioSpace 0 (mainargs ++ [0])) 12288 4
          ((screenW <<< 16) ||| screenH)) 540672 4 keyNone
    serialChBase := 4096
    rtcPortBase := 8192
    i8042DataPortBase := 540672
    pioMaps :=
      [deviceMap 0x3f8 4096 1 (some .serialChIoHandler),
       deviceMap 0x48 8192 4 (some .rtcIoHandler),
       deviceMap 0x100 12288 8 (some .vgaIoHandler),
       deviceMap 0x60 540672 4 (some .i8042DataIoHandler)]
    mmioMaps :=
      [deviceMap 0xa2000000 0 4096 none,
       deviceMap 0xa10003f8 4096 1 (some .serialChIoHandler),
       deviceMap 0xa1000048 8192 4 (some .rtcIoHandler),
       deviceMap 0xa1000100 12288 8 (some .vgaIoHandler),
       deviceMap 0xa0000000 16384 0x80000 none,
       deviceMap 0xa1000060 540672 4 (some .i8042DataIoHandler)] }

/-- Six spaces fit, and so do their maps. -/
theorem initDevice_run (mainargs : List Byte) {io : IOState} (hpio : io.pioMaps = [])
    (hmmio : io.mmioMaps = []) :
    initDevice mainargs ⟨io, 0⟩ = .ok ⟨⟩ ⟨initialized mainargs io, 544768⟩ := by
  cases io
  dsimp only at hpio hmmio
  subst hpio hmmio
  have hroom : ∀ n < 6, n < nrMap := fun n hn => Nat.lt_trans hn (by decide)
  refine (bind_ok (initMemory_run (p := 4096) (by decide) (by decide) ?_)).trans ?_
  · exact hroom 0 (by decide)
  refine (bind_ok (initPort_run (p := 8192) (by decide) (by decide) ?_ (by decide))).trans ?_
  · exact ⟨hroom 0 (by decide), hroom 1 (by decide)⟩
  refine (bind_ok (initPort_run (p := 12288) (by decide) (by decide) ?_ (by decide))).trans ?_
  · exact ⟨hroom 1 (by decide), hroom 2 (by decide)⟩
  refine (bind_ok ((bind_ok (initPort_run (p := 16384) (by decide) (by decide) ?_
    (by decide))).trans (initMemory_run (p := 540672) (by decide) (by decide) ?_))).trans ?_
  · exact ⟨hroom 2 (by decide), hroom 3 (by decide)⟩
  · exact hroom 4 (by decide)
  refine initPort_run (p := 544768) (by decide) (by decide) ?_ (by decide)
  exact ⟨hroom 3 (by decide), hroom 5 (by decide)⟩

end Ioe
end Nemu
