import Nemu.Common
import Nemu.Lib.LittleEndian

/-!
# Memory-mapped devices

`IOMap` and the devices behind it (`include/device/map.h`, `src/device/`).  Device registers live
in `io_space`; a `space` pointer is therefore an index into it.  The handlers run on `IOState`
alone, so no device can reach the CPU, guest memory or the run state.
-/

namespace Nemu

open StateRules

/-! ## Maps -/

/-- What an `IOMap`'s `space` points at: the array `pmem`, or `io_space` from an index on. -/
inductive Space
  | pmem
  | ioSpace (base : Nat)
  deriving DecidableEq, Repr

/-- `io_callback_t`: the handlers that the devices register. -/
inductive IOCallback
  | serialChIoHandler
  | rtcIoHandler
  | vgaIoHandler
  | i8042DataIoHandler
  deriving DecidableEq, Repr

structure IOMap where
  low : Word
  high : Word
  space : Space
  callback : Option IOCallback
  deriving DecidableEq, Repr

def mapInside (map : IOMap) (addr : Word) : Bool :=
  decide (map.low ≤ addr) && decide (addr ≤ map.high)

/-! ## Device state -/

structure IOState where
  ioSpace : Nat → Byte
  /-- `maps[0 .. nr_map)` of `mmio.c` -/
  mmioMaps : List IOMap
  /-- `maps[0 .. nr_map)` of `port-io.c` -/
  pioMaps : List IOMap
  serialChBase : Nat
  stdout : List Byte
  rtcPortBase : Nat
  /-- the seconds and microseconds that the calls of `gettimeofday` give, in order -/
  timeofday : Nat → Word × Word
  timeofdayCalls : Nat
  i8042DataPortBase : Nat
  keyQueue : Nat → Word
  keyF : Nat
  keyR : Nat

/-- The statics before `init_device`. -/
def IOState.zero : IOState :=
  { ioSpace := fun _ => 0, mmioMaps := [], pioMaps := [], serialChBase := 0, stdout := [],
    rtcPortBase := 0, timeofday := fun _ => (0, 0), timeofdayCalls := 0, i8042DataPortBase := 0,
    keyQueue := fun _ => 0, keyF := 0, keyR := 0 }

def keyQueueLen : Nat := 1024

def keyNone : Word := 0

abbrev OnIO := EStateM Fault IOState

/-- `base[0] = value` for a `uint32_t *` into `io_space`. -/
def IOState.setPort (io : IOState) (base : Nat) (value : Word) : IOState :=
  { io with ioSpace := LittleEndian.store io.ioSpace base 4 value }

/-! ## Handlers -/

def serialChIoHandler (offset : Word) (len : Nat) (isWrite : Bool) : OnIO Unit := do
  cAssert (offset == 0)
  cAssert isWrite
  cAssert (len == 1)
  modify fun io => { io with stdout := io.stdout ++ [io.ioSpace io.serialChBase] }

def rtcIoHandler (offset : Word) (_len : Nat) (isWrite : Bool) : OnIO Unit := do
  cAssert (offset == 0)
  if isWrite then
    pure ()
  else
    modify fun io =>
      let (seconds, useconds) := io.timeofday io.timeofdayCalls
      { io.setPort io.rtcPortBase (seconds * 1000 + (useconds + 500) / 1000) with
        timeofdayCalls := io.timeofdayCalls + 1 }

/-- The body of `vga_io_handler` is `TODO()`. -/
def vgaIoHandler (_offset : Word) (_len : Nat) (_isWrite : Bool) : OnIO Unit :=
  cAssert false

def i8042DataIoHandler (offset : Word) (_len : Nat) (isWrite : Bool) : OnIO Unit := do
  cAssert (!isWrite)
  cAssert (offset == 0)
  modify fun io =>
    if io.keyF ≠ io.keyR then
      { io.setPort io.i8042DataPortBase (io.keyQueue io.keyF) with
        keyF := (io.keyF + 1) % keyQueueLen }
    else
      io.setPort io.i8042DataPortBase keyNone

def IOCallback.run : IOCallback → Word → Nat → Bool → OnIO Unit
  | .serialChIoHandler => Nemu.serialChIoHandler
  | .rtcIoHandler => Nemu.rtcIoHandler
  | .vgaIoHandler => Nemu.vgaIoHandler
  | .i8042DataIoHandler => Nemu.i8042DataIoHandler

end Nemu
