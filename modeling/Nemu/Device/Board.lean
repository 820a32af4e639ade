import Nemu.Device.Init
import Nemu.Device.Keyboard
import Nemu.Lib.Requests

/-!
# Memory and devices, seen from outside

The accesses that a guest makes to the bus, as the code carries them out, and the machine that they
are meant to reach: a memory, two memories of devices, a console, a clock and a keyboard.  None of
these knows of `io_space`, of maps or of handlers.
-/

namespace Nemu

open LittleEndian StateRules

/-! ## Port I/O -/

/-- `pio_write_common` -/
def pioWriteCommon (addr : BitVec 16) (data : Word) (len : Nat) : OnBus Unit := do
  cAssert (decide (addr.toNat + len - 1 < portIoSpaceMax))
  let bus ← get
  let map ← findMapByAddr bus.io.pioMaps (addr.setWidth 32)
  cAssert map.isSome
  mapWrite (addr.setWidth 32) data len map

def pioReadW (addr : BitVec 16) : OnBus Word := pioReadCommon addr 2

def pioReadB (addr : BitVec 16) : OnBus Word := pioReadCommon addr 1

def pioWriteL (addr : BitVec 16) (data : Word) : OnBus Unit := pioWriteCommon addr data 4

def pioWriteW (addr : BitVec 16) (data : Word) : OnBus Unit := pioWriteCommon addr data 2

def pioWriteB (addr : BitVec 16) (data : Word) : OnBus Unit := pioWriteCommon addr data 1

/-- The suffix of a port I/O function. -/
inductive PioWidth
  | l
  | w
  | b
  deriving DecidableEq, Repr

namespace PioWidth

def bytes : PioWidth → Nat
  | l => 4
  | w => 2
  | b => 1

def read : PioWidth → BitVec 16 → OnBus Word
  | l => pioReadL
  | w => pioReadW
  | b => pioReadB

def write : PioWidth → BitVec 16 → Word → OnBus Unit
  | l => pioWriteL
  | w => pioWriteW
  | b => pioWriteB

theorem read_eq (width : PioWidth) (addr : BitVec 16) :
    width.read addr = pioReadCommon addr width.bytes := by
  cases width <;> rfl

theorem write_eq (width : PioWidth) (addr : BitVec 16) (data : Word) :
    width.write addr data = pioWriteCommon addr data width.bytes := by
  cases width <;> rfl

theorem bytes_le (width : PioWidth) : 1 ≤ width.bytes ∧ width.bytes ≤ 4 := by
  cases width <;> decide

end PioWidth

/-! ## Accesses -/

/-- What reaches the devices: the accesses of the guest, and the keys of the host. -/
inductive Access
  | paddrRead (addr : Word) (len : Nat)
  | paddrWrite (addr data : Word) (len : Nat)
  | pioRead (width : PioWidth) (addr : BitVec 16)
  | pioWrite (width : PioWidth) (addr : BitVec 16) (data : Word)
  | sendKey (state : RunState) (scancode : Byte) (isKeydown : Bool)

/-- The value that is read; 0 where nothing is. -/
def Access.run (keymap : Byte → Word) : Access → OnBus Word
  | .paddrRead addr len => Nemu.paddrRead addr len
  | .paddrWrite addr data len => do
      Nemu.paddrWrite addr data len
      return 0
  | .pioRead width addr => width.read addr
  | .pioWrite width addr data => do
      width.write addr data
      return 0
  | .sendKey state scancode isKeydown => do
      onIO (Nemu.sendKey keymap state scancode isKeydown)
      return 0

/-! ## Where an address leads -/

inductive Port
  | argsrom
  | serial
  | rtc
  | screen
  | vmem
  | keyboard
  deriving DecidableEq, Repr

namespace Port

def len : Port → Nat
  | argsrom => 4096
  | serial => 1
  | rtc => 4
  | screen => 8
  | vmem => 0x80000
  | keyboard => 4

def mmio : Port → Word
  | argsrom => 0xa2000000
  | serial => 0xa10003f8
  | rtc => 0xa1000048
  | screen => 0xa1000100
  | vmem => 0xa0000000
  | keyboard => 0xa1000060

def pio : Port → Option (BitVec 16)
  | argsrom => none
  | serial => some 0x3f8
  | rtc => some 0x48
  | screen => some 0x100
  | vmem => none
  | keyboard => some 0x60

/-- In the order of `init_device`. -/
def all : List Port := [argsrom, serial, rtc, screen, vmem, keyboard]

/-- The device and the offset in it, if it begins at `start`. -/
def at? (addr : Nat) (start : Nat) (p : Port) : Option (Port × Nat) :=
  if start ≤ addr ∧ addr < start + p.len then some (p, addr - start) else none

def ofMmio (addr : Word) : Option (Port × Nat) :=
  all.findSome? fun p => p.at? addr.toNat p.mmio.toNat

def ofPio (addr : BitVec 16) : Option (Port × Nat) :=
  all.findSome? fun p => p.pio.bind fun start => p.at? addr.toNat start.toNat

/-- The devices without a handler. -/
def IsMemory (p : Port) : Prop := p = argsrom ∨ p = vmem

end Port

/-! ## The board -/

structure Board where
  pmem : Nat → Byte
  argsrom : Nat → Byte
  vmem : Nat → Byte
  /-- What has been written to the console. -/
  stdout : List Byte
  /-- What the clock is going to say. -/
  clock : Nat → Word × Word
  /-- The keys that have not been read. -/
  keys : List Word

abbrev OnBoard := EStateM Fault Board

/-- The seconds and microseconds of `gettimeofday` in milliseconds. -/
def milliseconds (time : Word × Word) : Word := time.1 * 1000 + (time.2 + 500) / 1000

namespace Board

/-- `len` bytes from an offset of a device.  The clock and the keyboard go on at every read. -/
def read (p : Port) (offset len : Nat) : OnBoard Word :=
  match p with
  | .argsrom => do return load (← get).argsrom offset len
  | .vmem => do return load (← get).vmem offset len
  | .rtc => do
      cAssert (offset == 0)
      let b ← get
      set { b with clock := fun n => b.clock (n + 1) }
      return milliseconds (b.clock 0) &&& lenMask len
  | .keyboard => do
      cAssert (offset == 0)
      let b ← get
      set { b with keys := b.keys.tail }
      return b.keys.headD keyNone &&& lenMask len
  | .serial | .screen => throw .abort

def write (p : Port) (offset len : Nat) (data : Word) : OnBoard Unit :=
  match p with
  | .argsrom => modify fun b => { b with argsrom := store b.argsrom offset len data }
  | .vmem => modify fun b => { b with vmem := store b.vmem offset len data }
  | .serial => do
      cAssert (len == 1)
      modify fun b => { b with stdout := b.stdout ++ [byteOf data 0] }
  | .rtc => cAssert (offset == 0)
  | .screen | .keyboard => throw .abort

def readAt (place : Option (Port × Nat)) (len : Nat) : OnBoard Word :=
  match place with
  | some (p, offset) => read p offset len
  | none => throw .abort

def writeAt (place : Option (Port × Nat)) (len : Nat) (data : Word) : OnBoard Unit :=
  match place with
  | some (p, offset) => write p offset len data
  | none => throw .abort

/-- A memory that starts at `base`, and devices everywhere else. -/
def paddrRead (base addr : Word) (len : Nat) : OnBoard Word :=
  if mapInside (registerPmem base) addr then do
    return load (← get).pmem (addr - base).toNat len
  else readAt (Port.ofMmio addr) len

def paddrWrite (base addr data : Word) (len : Nat) : OnBoard Unit :=
  if mapInside (registerPmem base) addr then
    modify fun b => { b with pmem := store b.pmem (addr - base).toNat len data }
  else writeAt (Port.ofMmio addr) len data

/-- The queue has room for one key less than its length. -/
def press (key : Option Word) : OnBoard Unit :=
  match key with
  | some c => do
      cAssert (decide ((← get).keys.length + 1 < keyQueueLen))
      modify fun b => { b with keys := b.keys ++ [c] }
  | none => pure ()

def serve (base : Word) (keymap : Byte → Word) : Access → OnBoard Word
  | .paddrRead addr len => paddrRead base addr len
  | .paddrWrite addr data len => do
      paddrWrite base addr data len
      return 0
  | .pioRead width addr => readAt (Port.ofPio addr) width.bytes
  | .pioWrite width addr data => do
      writeAt (Port.ofPio addr) width.bytes data
      return 0
  | .sendKey state scancode isKeydown => do
      press ((KeyEvent.sendKey state scancode isKeydown).code keymap)
      return 0

/-- The board behind `init_device`. -/
def initial (pmem : Nat → Byte) (clock : Nat → Word × Word) (mainargs : List Byte) : Board :=
  { pmem, argsrom := fun i => (mainargs ++ [0]).getD i 0, vmem := fun _ => 0, stdout := [], clock,
    keys := [] }

end Board

/-! ## Accesses that stay where they are -/

/-- An access of one to four bytes that does not end behind the memory it begins in. -/
def Access.Fits (base : Word) : Access → Prop
  | .paddrRead addr len | .paddrWrite addr _ len =>
      (1 ≤ len ∧ len ≤ 4) ∧
        (mapInside (registerPmem base) addr = true → (addr - base).toNat + len ≤ pmemSize) ∧
        ∀ p offset, Port.ofMmio addr = some (p, offset) → p.IsMemory → offset + len ≤ p.len
  | .pioRead _ _ | .pioWrite _ _ _ | .sendKey _ _ _ => True

/-- The accesses that a guest is held to. -/
structure BoardAccess (base : Word) where
  access : Access
  fits : access.Fits base

end Nemu
