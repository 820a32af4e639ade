import Nemu.Device.Board
import Nemu.Isa

/-!
# The bus is the board

Every access that stays where it begins does to `io_space`, the maps and the handlers what it does to
the board, and returns what the board returns; and it stops the program where the board refuses it.
A guest, whatever it computes from what it reads, therefore runs on the bus as it runs on the board.
-/

namespace Nemu

open LittleEndian Requests StateRules

/-! ## The maps -/

namespace Port

/-- Where its space begins in `io_space`. -/
def space : Port → Nat
  | argsrom => 0
  | serial => 4096
  | rtc => 8192
  | screen => 12288
  | vmem => 16384
  | keyboard => 540672

def callback : Port → Option IOCallback
  | argsrom => none
  | serial => some .serialChIoHandler
  | rtc => some .rtcIoHandler
  | screen => some .vgaIoHandler
  | vmem => none
  | keyboard => some .i8042DataIoHandler

/-- The maps of the devices that begin at some address. -/
def maps (start : Port → Option Word) (ps : List Port) : List IOMap :=
  ps.filterMap fun p => (start p).map fun addr => deviceMap addr p.space p.len p.callback

/-- A port address as `add_pio_map` stores it. -/
def pioStart (p : Port) : Option Word := p.pio.map (BitVec.setWidth 32)

def mmioStart (p : Port) : Option Word := some p.mmio

theorem len_pos (p : Port) : 0 < p.len := by cases p <;> decide

end Port

/-- At an address inside the map is byte `offset` of the device. -/
structure IOMap.Leads (map : IOMap) (addr : Word) (p : Port) (offset : Nat) : Prop where
  inside : mapInside map addr = true
  offset_eq : (addr - map.low).toNat = offset
  lt : offset < p.len
  space : map.space = .ioSpace p.space
  callback : map.callback = p.callback

/-- A map that does not reach past the end of the address space. -/
theorem mapInside_deviceMap {start addr : Word} {space len : Nat} {callback : Option IOCallback}
    (hlen : 0 < len) (hfits : start.toNat + len < 4294967296) :
    mapInside (deviceMap start space len callback) addr = true ↔
      start.toNat ≤ addr.toNat ∧ addr.toNat < start.toNat + len := by
  have hhigh : (start + BitVec.ofNat 32 len - 1).toNat = start.toNat + len - 1 := by
    have hone : (1 : Word).toNat = 1 := rfl
    rw [BitVec.toNat_sub, BitVec.toNat_add, BitVec.toNat_ofNat, hone]
    omega
  have hlow : (deviceMap start space len callback).low = start := rfl
  have hhigh' : (deviceMap start space len callback).high.toNat = start.toNat + len - 1 := hhigh
  rw [mapInside, Bool.and_eq_true, decide_eq_true_eq, decide_eq_true_eq, BitVec.le_def,
    BitVec.le_def, hlow, hhigh']
  omega

theorem leads_deviceMap {start addr : Word} {p : Port} (hfits : start.toNat + p.len < 4294967296)
    (hin : start.toNat ≤ addr.toNat ∧ addr.toNat < start.toNat + p.len) :
    (deviceMap start p.space p.len p.callback).Leads addr p (addr.toNat - start.toNat) := by
  have hle : start ≤ addr := BitVec.le_def.2 hin.1
  refine ⟨(mapInside_deviceMap p.len_pos hfits).2 hin, ?_, by omega, rfl, rfl⟩
  exact BitVec.toNat_sub_of_le hle

/-! ## Lookups -/

/-- Finding a map is finding a device. -/
inductive Finds (addr : Word) : Option IOMap → Option (Port × Nat) → Prop
  | none : Finds addr .none .none
  | some {map : IOMap} {p : Port} {offset : Nat} (h : map.Leads addr p offset) :
      Finds addr (.some map) (.some (p, offset))

theorem find_maps {start : Port → Option Word}
    (hfits : ∀ p a, start p = some a → a.toNat + p.len < 4294967296) (addr : Word)
    (ps : List Port) :
    Finds addr ((Port.maps start ps).find? fun map => mapInside map addr)
      (ps.findSome? fun p => (start p).bind fun a => p.at? addr.toNat a.toNat) := by
  induction ps with
  | nil => exact .none
  | cons p ps ih =>
      cases hstart : start p with
      | none =>
          have hmaps : Port.maps start (p :: ps) = Port.maps start ps := by
            rw [Port.maps, List.filterMap_cons_none (by rw [hstart]; rfl)]
            rfl
          rw [hmaps, List.findSome?_cons, hstart]
          exact ih
      | some a =>
          have hmaps : Port.maps start (p :: ps) =
              deviceMap a p.space p.len p.callback :: Port.maps start ps := by
            rw [Port.maps, List.filterMap_cons_some (by rw [hstart]; rfl)]
            rfl
          have hinside : mapInside (deviceMap a p.space p.len p.callback) addr = true ↔
              a.toNat ≤ addr.toNat ∧ addr.toNat < a.toNat + p.len :=
            mapInside_deviceMap p.len_pos (hfits p a hstart)
          rw [hmaps, List.findSome?_cons, hstart, Option.bind_some, Port.at?, List.find?_cons]
          by_cases hin : a.toNat ≤ addr.toNat ∧ addr.toNat < a.toNat + p.len
          · rw [if_pos hin, hinside.2 hin]
            exact .some (leads_deviceMap (hfits p a hstart) hin)
          · rw [if_neg hin, Bool.eq_false_iff.2 (mt hinside.1 hin)]
            exact ih

theorem find_mmioMaps (addr : Word) :
    Finds addr ((Port.maps Port.mmioStart Port.all).find? fun map => mapInside map addr)
      (Port.ofMmio addr) := by
  refine find_maps (fun p a ha => ?_) addr Port.all
  cases ha
  cases p <;> decide

theorem find_pioMaps (addr : BitVec 16) :
    Finds (addr.setWidth 32)
      ((Port.maps Port.pioStart Port.all).find? fun map => mapInside map (addr.setWidth 32))
      (Port.ofPio addr) := by
  have hfits : ∀ p a, Port.pioStart p = some a → a.toNat + p.len < 4294967296 := by
    intro p a ha
    cases p <;> cases ha <;> decide
  have haddr : (addr.setWidth 32).toNat = addr.toNat :=
    BitVec.toNat_setWidth_of_le (by decide)
  have hfind := find_maps hfits (addr.setWidth 32) Port.all
  rw [haddr] at hfind
  exact hfind

/-! ## What is where -/

structure IOState.Shows (io : IOState) (b : Board) : Prop where
  pioMaps : io.pioMaps = Port.maps Port.pioStart Port.all
  mmioMaps : io.mmioMaps = Port.maps Port.mmioStart Port.all
  serialChBase : io.serialChBase = Port.serial.space
  rtcPortBase : io.rtcPortBase = Port.rtc.space
  i8042DataPortBase : io.i8042DataPortBase = Port.keyboard.space
  argsrom : ∀ i < Port.argsrom.len, io.ioSpace (Port.argsrom.space + i) = b.argsrom i
  vmem : ∀ i < Port.vmem.len, io.ioSpace (Port.vmem.space + i) = b.vmem i
  stdout : io.stdout = b.stdout
  clock : ∀ n, io.timeofday (io.timeofdayCalls + n) = b.clock n
  keys : io.keyRing.Holds keyQueueLen b.keys

structure Bus.Shows (base : Word) (bus : Bus) (b : Board) : Prop where
  map : bus.pmemMap = registerPmem base
  pmem : ∀ i < pmemSize, bus.pmem i = b.pmem i
  io : bus.io.Shows b

/-- Nothing is said about a program that has been stopped. -/
def Any (_ : Bus) (_ : Board) : Prop := True

/-- A space that belongs to neither of the two memories. -/
theorem IOState.Shows.store {io : IOState} {b : Board} (h : io.Shows b) {i n : Nat} (d : Word)
    (hout : Port.argsrom.len ≤ i ∧
      (i + n ≤ Port.vmem.space ∨ Port.vmem.space + Port.vmem.len ≤ i)) :
    IOState.Shows { io with ioSpace := store io.ioSpace i n d } b := by
  have hlen : Port.argsrom.len = 4096 := rfl
  have hspace : Port.argsrom.space = 0 ∧ Port.vmem.space = 16384 ∧ Port.vmem.len = 524288 :=
    ⟨rfl, rfl, rfl⟩
  refine { h with argsrom := fun j hj => ?_, vmem := fun j hj => ?_ }
  · rw [← h.argsrom j hj]
    exact if_neg (by omega)
  · rw [← h.vmem j hj]
    exact if_neg (by omega)

section Map

variable {base : Word} {bus : Bus} {b : Board} {map : IOMap} {addr : Word} {p : Port}
variable {offset len : Nat}

/-! ## Reads of a device -/

theorem IOMap.Leads.beq_zero (h : map.Leads addr p offset) : (addr - map.low == 0) = (offset == 0) := by
  rw [Bool.eq_iff_iff, beq_iff_eq, beq_iff_eq, ← h.offset_eq]
  exact ⟨fun heq => congrArg BitVec.toNat heq, fun heq => BitVec.eq_of_toNat_eq heq⟩

theorem mapRead_of_callback (h : map.Leads addr p offset) (hlen : 1 ≤ len ∧ len ≤ 4)
    {io : IOState} (hrun : invokeCallback p.callback (addr - map.low) len false bus =
      .ok ⟨⟩ { bus with io }) :
    mapRead addr len (some map) bus =
      .ok (load io.ioSpace (p.space + offset) len) { bus with io } := by
  have hvalue : Bus.load { bus with io } ⟨map.space, (addr - map.low).toNat, 4⟩ &&& lenMask len =
      load io.ioSpace (p.space + offset) len := by
    have hmask : Bus.load { bus with io } ⟨map.space, (addr - map.low).toNat, 4⟩ &&& lenMask len =
        load (Bus.bytes { bus with io } map.space) (addr - map.low).toNat len :=
      load_four_and_mask _ _ _ hlen.2
    rw [hmask, h.space, h.offset_eq]
    exact load_shift fun i _ => congrArg io.ioSpace (Nat.add_assoc _ _ _).symm
  rw [mapRead_run hlen h.inside, h.callback, bind_ok hrun, bind_ok (get_run _), hvalue]
  rfl

theorem invokeCallback_error {c : IOCallback} {off : Word} {isWrite : Bool} {e : Fault}
    {io : IOState} (h : c.run off len isWrite bus.io = .error e io) :
    invokeCallback (some c) off len isWrite bus = .error e { bus with io } := by
  unfold invokeCallback
  simp only [h]

theorem mapRead_of_error (h : map.Leads addr p offset) (hlen : 1 ≤ len ∧ len ≤ 4) {e : Fault}
    {bus' : Bus} (hrun : invokeCallback p.callback (addr - map.low) len false bus =
      .error e bus') : mapRead addr len (some map) bus = .error e bus' := by
  rw [mapRead_run hlen h.inside, h.callback, bind_error hrun]

/-- A word that a handler has stored is read back, as far as it is asked for. -/
theorem load_stored (f : Nat → Byte) (i : Nat) (d : Word) (hlen : len ≤ 4) :
    load (store f i 4 d) i len = d &&& lenMask len := by
  rw [← load_four_and_mask _ _ _ hlen, load_store]
  rfl

theorem memory_value {f g : Nat → Byte} {start n : Nat} (h : ∀ i < n, f (start + i) = g i)
    (hfits : offset + len ≤ n) : load f (start + offset) len = load g offset len :=
  load_shift fun i hi => by rw [Nat.add_assoc, h _ (by omega)]

/-- A handler that refuses the access, on a device that the board refuses it for. -/
theorem read_refused {c : IOCallback} (hc : p.callback = some c)
    (hm : map.Leads addr p offset) (hlen : 1 ≤ len ∧ len ≤ 4)
    (hrun : ∀ io, c.run (addr - map.low) len false io = .error .abort io)
    (hboard : Board.read p offset len b = .error .abort b) :
    Agrees (Bus.Shows base) Any (mapRead addr len (some map) bus) (Board.read p offset len b) := by
  have hcallback : invokeCallback p.callback (addr - map.low) len false bus =
      .error .abort { bus with io := bus.io } := by
    rw [hc]
    exact invokeCallback_error (hrun bus.io)
  rw [mapRead_of_error hm hlen hcallback, hboard]
  exact .error trivial

/-- A handler that stores a word at the beginning of its space. -/
theorem read_stored {c : IOCallback} {io : IOState} {b' : Board} {d : Word} {f : Nat → Byte}
    (hc : p.callback = some c) (hm : map.Leads addr p 0) (hlen : 1 ≤ len ∧ len ≤ 4)
    (hrun : c.run (addr - map.low) len false bus.io = .ok ⟨⟩ io)
    (hspace : io.ioSpace = store f p.space 4 d) (hio : io.Shows b')
    (h : bus.Shows base b) (hpmem : b'.pmem = b.pmem)
    (hboard : Board.read p 0 len b = .ok (d &&& lenMask len) b') :
    Agrees (Bus.Shows base) Any (mapRead addr len (some map) bus) (Board.read p 0 len b) := by
  have hcallback : invokeCallback p.callback (addr - map.low) len false bus =
      .ok ⟨⟩ { bus with io } := by
    rw [hc]
    exact invokeCallback_ok hrun
  rw [mapRead_of_callback hm hlen hcallback, hspace, Nat.add_zero, load_stored _ _ _ hlen.2, hboard]
  exact .ok ⟨h.map, hpmem ▸ h.pmem, hio⟩

theorem IOState.Shows.setPort {io : IOState} (h : io.Shows b) (hp : p = .rtc ∨ p = .keyboard)
    (d : Word) : (io.setPort p.space d).Shows b := by
  refine h.store d ?_
  rcases hp with rfl | rfl <;> decide

theorem rtc_read (h : bus.Shows base b) (hm : map.Leads addr .rtc offset)
    (hlen : 1 ≤ len ∧ len ≤ 4) :
    Agrees (Bus.Shows base) Any (mapRead addr len (some map) bus) (Board.read .rtc offset len b) := by
  by_cases hzero : offset = 0
  · subst hzero
    let d := milliseconds (bus.io.timeofday bus.io.timeofdayCalls)
    let io : IOState := { bus.io.setPort bus.io.rtcPortBase d with
      timeofdayCalls := bus.io.timeofdayCalls + 1 }
    have hrun : rtcIoHandler (addr - map.low) len false bus.io = .ok ⟨⟩ io := by
      rw [rtcIoHandler, hm.beq_zero]
      rfl
    have hset := h.io.setPort (p := .rtc) (.inl rfl) d
    rw [← h.io.rtcPortBase] at hset
    have hclock : ∀ n, bus.io.timeofday (bus.io.timeofdayCalls + 1 + n) = b.clock (n + 1) := by
      intro n
      rw [← h.io.clock (n + 1), Nat.add_assoc, Nat.add_comm 1]
    have hio : io.Shows { b with clock := fun n => b.clock (n + 1) } := { hset with clock := hclock }
    have hspace : io.ioSpace = store bus.io.ioSpace Port.rtc.space 4 d := by
      rw [← h.io.rtcPortBase]
      rfl
    have hd : d = milliseconds (b.clock 0) := congrArg milliseconds (h.io.clock 0)
    refine read_stored rfl hm hlen hrun hspace hio h rfl ?_
    rw [hd]
    rfl
  · have hrefused : (offset == 0) = false := beq_eq_false_iff_ne.2 hzero
    refine read_refused rfl hm hlen (fun io => ?_) ?_
    · change rtcIoHandler (addr - map.low) len false io = _
      rw [rtcIoHandler, hm.beq_zero, hrefused]
      rfl
    · rw [Board.read, hrefused]
      rfl

/-- What the handler of the keyboard puts into the data port is the oldest key, or none. -/
theorem i8042DataIoHandler_shows {io : IOState} (h : io.Shows b) (len : Nat)
    (hoffset : (addr - map.low == 0) = true) :
    ∃ io', i8042DataIoHandler (addr - map.low) len false io = .ok ⟨⟩ io' ∧
      io'.ioSpace = store io.ioSpace Port.keyboard.space 4 (b.keys.headD keyNone) ∧
      io'.Shows { b with keys := b.keys.tail } := by
  have hrun : i8042DataIoHandler (addr - map.low) len false io =
      .ok ⟨⟩ (if io.keyF ≠ io.keyR then
        { io.setPort io.i8042DataPortBase (io.keyQueue io.keyF) with
          keyF := (io.keyF + 1) % keyQueueLen }
      else io.setPort io.i8042DataPortBase keyNone) := by
    rw [i8042DataIoHandler, hoffset]
    rfl
  have hring := h.keys
  have hset : ∀ d, IOState.Shows (io.setPort io.i8042DataPortBase d) b := by
    intro d
    rw [h.i8042DataPortBase]
    exact h.setPort (p := .keyboard) (.inr rfl) d
  have hspace : ∀ d, (io.setPort io.i8042DataPortBase d).ioSpace =
      store io.ioSpace Port.keyboard.space 4 d := by
    intro d
    rw [h.i8042DataPortBase]
    rfl
  cases hkeys : b.keys with
  | nil =>
      rw [hkeys] at hring
      have hempty : io.keyF = io.keyR := hring.isEmpty_iff.2 rfl
      rw [if_neg (fun hne => hne hempty)] at hrun
      refine ⟨_, hrun, hspace keyNone, { hset keyNone with keys := ?_ }⟩
      exact hring
  | cons c keys =>
      rw [hkeys] at hring
      have hne : io.keyF ≠ io.keyR := fun heq => by cases hring.isEmpty_iff.1 heq
      rcases hring.pop with ⟨hfirst, hrest⟩
      have hfirst' : io.keyQueue io.keyF = c := hfirst
      rw [if_pos hne, hfirst'] at hrun
      exact ⟨_, hrun, hspace c, { hset c with keys := hrest }⟩

theorem keyboard_read (h : bus.Shows base b) (hm : map.Leads addr .keyboard offset)
    (hlen : 1 ≤ len ∧ len ≤ 4) :
    Agrees (Bus.Shows base) Any (mapRead addr len (some map) bus)
      (Board.read .keyboard offset len b) := by
  by_cases hzero : offset = 0
  · subst hzero
    rcases i8042DataIoHandler_shows h.io len hm.beq_zero with ⟨io, hrun, hspace, hio⟩
    exact read_stored rfl hm hlen hrun hspace hio h rfl rfl
  · have hrefused : (offset == 0) = false := beq_eq_false_iff_ne.2 hzero
    refine read_refused rfl hm hlen (fun io => ?_) ?_
    · change i8042DataIoHandler (addr - map.low) len false io = _
      rw [i8042DataIoHandler, hm.beq_zero, hrefused]
      rfl
    · rw [Board.read, hrefused]
      rfl

theorem mapRead_agrees (h : bus.Shows base b) (hm : map.Leads addr p offset)
    (hlen : 1 ≤ len ∧ len ≤ 4) (hfits : p.IsMemory → offset + len ≤ p.len) :
    Agrees (Bus.Shows base) Any (mapRead addr len (some map) bus) (Board.read p offset len b) := by
  have hmemory : ∀ {bytes : Nat → Byte}, p.callback = none → p.IsMemory →
      (∀ i < p.len, bus.io.ioSpace (p.space + i) = bytes i) →
      mapRead addr len (some map) bus = .ok (load bytes offset len) bus := by
    intro bytes hc hp hbytes
    have hrun : invokeCallback p.callback (addr - map.low) len false bus =
        .ok ⟨⟩ { bus with io := bus.io } := by rw [hc]; rfl
    rw [mapRead_of_callback hm hlen hrun, memory_value hbytes (hfits hp)]
  cases p with
  | argsrom =>
      rw [hmemory rfl (.inl rfl) h.io.argsrom]
      exact .ok h
  | vmem =>
      rw [hmemory rfl (.inr rfl) h.io.vmem]
      exact .ok h
  | rtc => exact rtc_read h hm hlen
  | keyboard => exact keyboard_read h hm hlen
  | serial =>
      have hfirst : offset = 0 := Nat.lt_one_iff.1 hm.lt
      refine read_refused rfl hm hlen (fun io => ?_) rfl
      change serialChIoHandler (addr - map.low) len false io = _
      rw [serialChIoHandler, hm.beq_zero, hfirst]
      rfl
  | screen => exact read_refused rfl hm hlen (fun _ => rfl) rfl

/-! ## Writes of a device -/

theorem mapWrite_of_leads (h : map.Leads addr p offset) (hlen : 1 ≤ len ∧ len ≤ 4) (data : Word) :
    mapWrite addr data len (some map) bus =
      invokeCallback p.callback (addr - map.low) len true { bus with
        io := { bus.io with ioSpace := store bus.io.ioSpace (p.space + offset) len data } } := by
  rw [mapWrite_run hlen h.inside, h.callback, h.space, h.offset_eq]
  rfl

theorem write_refused {c : IOCallback} {data : Word} (hc : p.callback = some c)
    (hm : map.Leads addr p offset) (hlen : 1 ≤ len ∧ len ≤ 4)
    (hrun : ∀ io, c.run (addr - map.low) len true io = .error .abort io)
    (hboard : Board.write p offset len data b = .error .abort b) :
    Agrees (Bus.Shows base) Any (mapWrite addr data len (some map) bus)
      (Board.write p offset len data b) := by
  rw [mapWrite_of_leads hm hlen, hc, invokeCallback_error (hrun _), hboard]
  exact .error trivial

theorem serial_write (h : bus.Shows base b) (hm : map.Leads addr .serial offset)
    (hlen : 1 ≤ len ∧ len ≤ 4) (data : Word) :
    Agrees (Bus.Shows base) Any (mapWrite addr data len (some map) bus)
      (Board.write .serial offset len data b) := by
  have hfirst : offset = 0 := Nat.lt_one_iff.1 hm.lt
  subst hfirst
  have hrun : ∀ io, serialChIoHandler (addr - map.low) len true io = (do
      cAssert (len == 1)
      modify fun io : IOState => { io with stdout := io.stdout ++ [io.ioSpace io.serialChBase] } :
        OnIO Unit) io := by
    intro io
    rw [serialChIoHandler, hm.beq_zero]
    rfl
  by_cases hone : len = 1
  · subst hone
    let io : IOState :=
      { bus.io with ioSpace := store bus.io.ioSpace (Port.serial.space + 0) 1 data }
    have hio : io.Shows b := h.io.store data (by decide)
    have hbyte : io.ioSpace io.serialChBase = byteOf data 0 := by
      rw [hio.serialChBase]
      change store bus.io.ioSpace 4096 1 data 4096 = _
      rw [store_apply, if_pos (by decide)]
    have hstdout : io.stdout ++ [io.ioSpace io.serialChBase] = b.stdout ++ [byteOf data 0] := by
      rw [hio.stdout, hbyte]
    have hok : IOCallback.run .serialChIoHandler (addr - map.low) 1 true io =
        .ok ⟨⟩ { io with stdout := io.stdout ++ [io.ioSpace io.serialChBase] } := hrun io
    have hwrite : mapWrite addr data 1 (some map) bus = .ok ⟨⟩ { bus with
        io := { io with stdout := io.stdout ++ [io.ioSpace io.serialChBase] } } :=
      (mapWrite_of_leads hm hlen data).trans (invokeCallback_ok hok)
    rw [hwrite]
    exact .ok ⟨h.map, h.pmem, { hio with stdout := hstdout }⟩
  · have hrefused : (len == 1) = false := beq_eq_false_iff_ne.2 hone
    refine write_refused rfl hm hlen (fun io => (hrun io).trans ?_) ?_
    · rw [hrefused]
      rfl
    · rw [Board.write, hrefused]
      rfl

/-- The register of the clock is overwritten before it is read. -/
theorem rtc_write (h : bus.Shows base b) (hm : map.Leads addr .rtc offset)
    (hlen : 1 ≤ len ∧ len ≤ 4) (data : Word) :
    Agrees (Bus.Shows base) Any (mapWrite addr data len (some map) bus)
      (Board.write .rtc offset len data b) := by
  by_cases hzero : offset = 0
  · subst hzero
    let io : IOState :=
      { bus.io with ioSpace := store bus.io.ioSpace (Port.rtc.space + 0) len data }
    have hspace : Port.argsrom.len ≤ Port.rtc.space + 0 ∧ Port.rtc.space + 0 + 4 ≤ Port.vmem.space := by
      decide
    have hio : io.Shows b := h.io.store data ⟨hspace.1, .inl (by omega)⟩
    have hok : IOCallback.run .rtcIoHandler (addr - map.low) len true io = .ok ⟨⟩ io := by
      change rtcIoHandler (addr - map.low) len true io = _
      rw [rtcIoHandler, hm.beq_zero]
      rfl
    have hwrite : mapWrite addr data len (some map) bus = .ok ⟨⟩ { bus with io } :=
      (mapWrite_of_leads hm hlen data).trans (invokeCallback_ok hok)
    rw [hwrite]
    exact .ok ⟨h.map, h.pmem, hio⟩
  · have hrefused : (offset == 0) = false := beq_eq_false_iff_ne.2 hzero
    refine write_refused rfl hm hlen (fun io => ?_) ?_
    · change rtcIoHandler (addr - map.low) len true io = _
      rw [rtcIoHandler, hm.beq_zero, hrefused]
      rfl
    · rw [Board.write, hrefused]
      rfl

/-- A write to a memory is a write to the bytes that the board has for it. -/
theorem memory_write {f g : Nat → Byte} {start n : Nat} {data : Word}
    (h : ∀ i < n, f (start + i) = g i) :
    ∀ i < n, store f (start + offset) len data (start + i) = store g offset len data i := by
  intro i hi
  have hsub : start + i - (start + offset) = i - offset := Nat.add_sub_add_left _ _ _
  have hrange : (start + offset ≤ start + i ∧ start + i < start + offset + len) ↔
      (offset ≤ i ∧ i < offset + len) := by omega
  rw [store_apply, store_apply, hsub, h i hi]
  exact if_congr hrange rfl rfl

theorem mapWrite_agrees (h : bus.Shows base b) (hm : map.Leads addr p offset)
    (hlen : 1 ≤ len ∧ len ≤ 4) (hfits : p.IsMemory → offset + len ≤ p.len) (data : Word) :
    Agrees (Bus.Shows base) Any (mapWrite addr data len (some map) bus)
      (Board.write p offset len data b) := by
  have hwrite : mapWrite addr data len (some map) bus = _ := mapWrite_of_leads hm hlen data
  cases p with
  | argsrom =>
      have hend : offset + len ≤ 4096 := hfits (.inl rfl)
      have hvmem : ∀ i < Port.vmem.len, store bus.io.ioSpace (Port.argsrom.space + offset) len data
          (Port.vmem.space + i) = b.vmem i := by
        intro i hi
        have hspace : Port.argsrom.space = 0 ∧ Port.vmem.space = 16384 := ⟨rfl, rfl⟩
        rw [← h.io.vmem i hi, store_apply, if_neg (by omega)]
      rw [hwrite]
      exact .ok ⟨h.map, h.pmem, { h.io with argsrom := memory_write h.io.argsrom, vmem := hvmem }⟩
  | vmem =>
      have hargsrom : ∀ i < Port.argsrom.len, store bus.io.ioSpace (Port.vmem.space + offset) len data
          (Port.argsrom.space + i) = b.argsrom i := by
        intro i hi
        have hspace : Port.argsrom.space = 0 ∧ Port.vmem.space = 16384 ∧ Port.argsrom.len = 4096 :=
          ⟨rfl, rfl, rfl⟩
        rw [← h.io.argsrom i hi, store_apply, if_neg (by omega)]
      rw [hwrite]
      exact .ok ⟨h.map, h.pmem, { h.io with argsrom := hargsrom, vmem := memory_write h.io.vmem }⟩
  | rtc => exact rtc_write h hm hlen data
  | keyboard => exact write_refused rfl hm hlen (fun _ => rfl) rfl
  | serial => exact serial_write h hm hlen data
  | screen => exact write_refused rfl hm hlen (fun _ => rfl) rfl

end Map

/-! ## Accesses -/

section Access

variable {base : Word} {bus : Bus} {b : Board}

theorem Bus.Shows.skipRef (h : bus.Shows base b) : bus.skipRef.Shows base b := ⟨h.map, h.pmem, h.io⟩

/-- What follows the lookup of a map, and is told that there is none as well. -/
theorem lookup_agrees {α : Type} {maps : List IOMap} {addr : Word} {place : Option (Port × Nat)}
    (h : bus.Shows base b) (hfind : Finds addr (maps.find? fun map => mapInside map addr) place)
    {f : Option IOMap → OnBus α} {g : Option (Port × Nat) → OnBoard α}
    (hsome : ∀ map p offset (bus' : Bus), place = some (p, offset) → map.Leads addr p offset →
      bus'.Shows base b → Agrees (Bus.Shows base) Any (f (some map) bus') (g place b))
    (hnone : f none bus = .error .abort bus ∧ g none b = .error .abort b) :
    Agrees (Bus.Shows base) Any ((findMapByAddr maps addr >>= f) bus) (g place b) := by
  unfold findMapByAddr
  generalize maps.find? (fun map => mapInside map addr) = found at hfind
  cases hfind with
  | none =>
      have hrun : ((pure none : OnBus (Option IOMap)) >>= f) bus = f none bus := rfl
      rw [hrun, hnone.1, hnone.2]
      exact .error trivial
  | some hm => exact hsome _ _ _ _ rfl hm h.skipRef

theorem mapRead_none (addr : Word) {len : Nat} (hlen : 1 ≤ len ∧ len ≤ 4) (bus : Bus) :
    mapRead addr len none bus = .error .abort bus := by
  rw [mapRead, decide_eq_true hlen.1, decide_eq_true hlen.2]
  rfl

theorem mapWrite_none (addr data : Word) {len : Nat} (hlen : 1 ≤ len ∧ len ≤ 4) (bus : Bus) :
    mapWrite addr data len none bus = .error .abort bus := by
  rw [mapWrite, decide_eq_true hlen.1, decide_eq_true hlen.2]
  rfl

theorem paddrRead_agrees (h : bus.Shows base b) {addr : Word} {len : Nat}
    (hlen : 1 ≤ len ∧ len ≤ 4)
    (hpmem : mapInside (registerPmem base) addr = true → (addr - base).toNat + len ≤ pmemSize)
    (hport : ∀ p offset, Port.ofMmio addr = some (p, offset) → p.IsMemory → offset + len ≤ p.len) :
    Agrees (Bus.Shows base) Any (paddrRead addr len bus) (Board.paddrRead base addr len b) := by
  unfold Board.paddrRead
  by_cases hin : mapInside (registerPmem base) addr = true
  · have hend := hpmem hin
    have hvalue : bus.load (paddrReadAccess bus.pmemMap addr) &&& lenMask len =
        load b.pmem (addr - base).toNat len := by
      have hmask : bus.load (paddrReadAccess bus.pmemMap addr) &&& lenMask len =
          load bus.pmem (addr - bus.pmemMap.low).toNat len := load_four_and_mask _ _ _ hlen.2
      have hlow : (registerPmem base).low = base := rfl
      rw [hmask, h.map, hlow]
      exact load_shift fun i hi => h.pmem _ (by omega)
    rw [if_pos hin, paddrRead_pmem len (by rwa [h.map]), hvalue]
    exact .ok h
  · rw [if_neg hin, paddrRead, bind_ok (get_run bus), h.map, if_neg hin, fetchMmioMap, bind_assoc,
      bind_ok (get_run bus), h.io.mmioMaps]
    refine lookup_agrees (g := fun place => Board.readAt place len) h (find_mmioMaps addr) ?_
      ⟨mapRead_none addr hlen bus, rfl⟩
    intro map p offset bus' hplace hm hbus'
    rw [hplace]
    exact mapRead_agrees hbus' hm hlen (hport p offset hplace)

theorem paddrWrite_agrees (h : bus.Shows base b) {addr data : Word} {len : Nat}
    (hlen : 1 ≤ len ∧ len ≤ 4)
    (hport : ∀ p offset, Port.ofMmio addr = some (p, offset) → p.IsMemory → offset + len ≤ p.len) :
    Agrees (Bus.Shows base) Any (paddrWrite addr data len bus)
      (Board.paddrWrite base addr data len b) := by
  unfold Board.paddrWrite
  by_cases hin : mapInside (registerPmem base) addr = true
  · rw [if_pos hin, paddrWrite_pmem data len (by rwa [h.map])]
    refine .ok ⟨h.map, fun i hi => ?_, { h.io with }⟩
    change store bus.pmem (addr - bus.pmemMap.low).toNat len data i =
      store b.pmem (addr - base).toNat len data i
    rw [h.map, store_apply, store_apply, h.pmem i hi]
    rfl
  · rw [if_neg hin, paddrWrite, bind_ok (get_run bus), h.map, if_neg hin, fetchMmioMap, bind_assoc,
      bind_ok (get_run bus), h.io.mmioMaps]
    refine lookup_agrees (g := fun place => Board.writeAt place len data) h (find_mmioMaps addr) ?_
      ⟨mapWrite_none addr data hlen bus, rfl⟩
    intro map p offset bus' hplace hm hbus'
    rw [hplace]
    exact mapWrite_agrees hbus' hm hlen (hport p offset hplace) data

/-- No device of port I/O is a memory, and all of them lie below the limit. -/
theorem ofPio_some {addr : BitVec 16} {p : Port} {offset : Nat}
    (h : Port.ofPio addr = some (p, offset)) : ¬ p.IsMemory ∧ addr.toNat < 0x400 := by
  rcases List.exists_of_findSome?_eq_some h with ⟨q, -, hq⟩
  rcases Option.bind_eq_some_iff.1 hq with ⟨start, hstart, hat⟩
  unfold Port.at? at hat
  split at hat
  case isTrue hin =>
    cases hat
    unfold Port.IsMemory
    cases p <;> cases hstart <;> simp [Port.len] at hin ⊢ <;> omega
  case isFalse => cases hat

/-- What the functions of port I/O have in common. -/
theorem pio_agrees {α : Type} (h : bus.Shows base b) (addr : BitVec 16) {len : Nat}
    (hlen : 1 ≤ len ∧ len ≤ 4) {f : Option IOMap → OnBus α} {g : Option (Port × Nat) → OnBoard α}
    (hsome : ∀ map p offset (bus' : Bus), Port.ofPio addr = some (p, offset) →
      map.Leads (addr.setWidth 32) p offset → bus'.Shows base b →
      Agrees (Bus.Shows base) Any (f (some map) bus') (g (Port.ofPio addr) b))
    (hnone : g none b = .error .abort b) :
    Agrees (Bus.Shows base) Any
      ((do
        cAssert (decide (addr.toNat + len - 1 < portIoSpaceMax))
        let bus ← get
        let map ← findMapByAddr bus.io.pioMaps (addr.setWidth 32)
        cAssert map.isSome
        f map : OnBus α) bus) (g (Port.ofPio addr) b) := by
  by_cases hlimit : addr.toNat + len - 1 < portIoSpaceMax
  · rw [decide_eq_true hlimit, bind_ok (cAssert_true_run bus), bind_ok (get_run bus), h.io.pioMaps]
    exact lookup_agrees h (find_pioMaps addr) hsome ⟨rfl, hnone⟩
  · -- so far up there is no device
    have hplace : Port.ofPio addr = none := by
      cases hplace : Port.ofPio addr with
      | none => rfl
      | some place =>
          have hlow := (ofPio_some hplace).2
          have hmax : portIoSpaceMax = 65535 := rfl
          omega
    rw [decide_eq_false hlimit, hplace, hnone]
    exact .error trivial

theorem press_agrees (h : bus.Shows base b) (keymap : Byte → Word) (state : RunState)
    (scancode : Byte) (isKeydown : Bool) :
    Agrees (Bus.Shows base) Any ( onIO (sendKey keymap state scancode isKeydown) bus)
      (Board.press ((KeyEvent.sendKey state scancode isKeydown).code keymap) b) := by
  rw [KeyEvent.code]
  by_cases haccept : state = .nemuRunning ∧ keymap scancode ≠ keyNone
  · let c := keymap scancode ||| (if isKeydown then keydownMask else 0)
    let io : IOState :=
      { bus.io with
        keyQueue := Function.update bus.io.keyQueue bus.io.keyR c
        keyR := (bus.io.keyR + 1) % keyQueueLen }
    have hsend : sendKey keymap state scancode isKeydown bus.io = cAssert (io.keyR != io.keyF) io := by
      rw [sendKey, if_pos haccept, bind_ok (modify_run _ bus.io)]
      exact bind_ok (get_run io)
    have hpress : Board.press (some c) b =
        (cAssert (decide (b.keys.length + 1 < keyQueueLen)) >>= fun _ =>
          modify fun b => { b with keys := b.keys ++ [c] } : OnBoard Unit) b :=
      bind_ok (get_run b)
    have hfull : io.keyR = io.keyF ↔ b.keys.length + 1 = keyQueueLen :=
      h.io.keys.full_iff (a := c)
    have hlength := h.io.keys.length
    rw [if_pos haccept, hpress]
    by_cases hroom : b.keys.length + 1 < keyQueueLen
    · have hne : (io.keyR != io.keyF) = true := by
        rw [bne_iff_ne, ne_eq, hfull]
        exact Nat.ne_of_lt hroom
      rw [hne] at hsend
      rw [decide_eq_true hroom, onIO_ok (hsend.trans (cAssert_true_run io))]
      exact .ok ⟨h.map, h.pmem, { h.io with keys := h.io.keys.push hroom }⟩
    · have hfired : (io.keyR != io.keyF) = false := by
        rw [bne_eq_false_iff_eq, hfull]
        omega
      rw [hfired] at hsend
      rw [decide_eq_false hroom, onIO_error (hsend.trans rfl)]
      exact .error trivial
  · rw [if_neg haccept]
    have hignored : sendKey keymap state scancode isKeydown bus.io = .ok ⟨⟩ bus.io := by
      rw [sendKey, if_neg haccept]
      rfl
    rw [onIO_ok hignored]
    exact .ok h

/-- One access. -/
theorem access_agrees (h : bus.Shows base b) (keymap : Byte → Word) {a : Access}
    (hfits : a.Fits base) :
    Agrees (Bus.Shows base) Any (a.run keymap bus) (Board.serve base keymap a b) := by
  cases a with
  | paddrRead addr len => exact paddrRead_agrees h hfits.1 hfits.2.1 hfits.2.2
  | paddrWrite addr data len =>
      refine Agrees.bind ?_ fun _ _ _ h' => .ok h'
      exact paddrWrite_agrees h hfits.1 hfits.2.2
  | pioRead width addr =>
      rw [Access.run, width.read_eq]
      refine pio_agrees (g := fun place => Board.readAt place width.bytes) h addr width.bytes_le
        (fun map p offset bus' hplace hm hbus' => ?_) rfl
      rw [hplace]
      exact mapRead_agrees hbus' hm width.bytes_le fun hp => absurd hp (ofPio_some hplace).1
  | pioWrite width addr data =>
      rw [Access.run, width.write_eq]
      refine Agrees.bind ?_ fun _ _ _ h' => .ok h'
      refine pio_agrees (g := fun place => Board.writeAt place width.bytes data) h addr
        width.bytes_le (fun map p offset bus' hplace hm hbus' => ?_) rfl
      rw [hplace]
      exact mapWrite_agrees hbus' hm width.bytes_le (fun hp => absurd hp (ofPio_some hplace).1) data
  | sendKey state scancode isKeydown =>
      refine Agrees.bind ?_ fun _ _ _ h' => .ok h'
      exact press_agrees h keymap state scancode isKeydown

end Access

/-! ## Guests -/

/-- A guest: what it accesses next may depend on all that it has read. -/
abbrev Guest (base : Word) (α : Type) := Client (BoardAccess base) Word Fault α

section Guest

variable {base : Word} (keymap : Byte → Word) {α : Type}

def Guest.onBus (guest : Guest base α) : OnBus α := guest.run fun a => a.access.run keymap

def Guest.onBoard (guest : Guest base α) : OnBoard α :=
  guest.run fun a => Board.serve base keymap a.access

theorem Guest.agrees (guest : Guest base α) {bus : Bus} {b : Board} (h : bus.Shows base b) :
    Agrees (Bus.Shows base) Any (guest.onBus keymap bus) (guest.onBoard keymap b) := by
  refine Client.run_agrees (fun _ _ _ => trivial) (fun a bus' b' h' => ?_) guest h
  exact access_agrees h' keymap a.fits

end Guest

/-- The clock is the only static that something outside the program has set. -/
def IOInit.start (clock : Nat → Word × Word) : IOInit := ⟨{ IOState.zero with timeofday := clock }, 0⟩

theorem initialized_shows (pmem : Nat → Byte) (clock : Nat → Word × Word) {mainargs : List Byte}
    (hargs : mainargs.length < Port.argsrom.len) :
    (Ioe.initialized mainargs (IOInit.start clock).io).Shows (Board.initial pmem clock mainargs) := by
  have hlen : Port.argsrom.len = 4096 := rfl
  have hspace : ∀ i < 540672, (i < 12288 ∨ 16384 ≤ i) →
      (Ioe.initialized mainargs (IOInit.start clock).io).ioSpace i =
        (mainargs ++ [0]).getD i 0 := by
    intro i hi hout
    change store (store (memcpy (fun _ => 0) 0 (mainargs ++ [0])) 12288 4 _) 540672 4 _ i = _
    rw [store_of_lt hi, store_apply, if_neg (by omega), memcpy, if_pos (Nat.zero_le i)]
    rfl
  refine ⟨rfl, rfl, rfl, rfl, rfl, fun i hi => ?_, fun i hi => ?_, rfl, fun n => ?_,
    RingBuffer.holds_nil (by decide) _⟩
  · change _ < 4096 at hi
    have hstart : Port.argsrom.space + i = i := Nat.zero_add i
    rw [hstart, hspace i (by omega) (by omega)]
    rfl
  · change _ < 524288 at hi
    have hstart : Port.vmem.space = 16384 := rfl
    rw [hstart, hspace _ (by omega) (by omega), List.getD_eq_getElem?_getD,
      List.getElem?_eq_none (by rw [List.length_append, List.length_singleton]; omega)]
    rfl
  · exact congrArg clock (Nat.zero_add n)

/-- Behind `init_device`, whatever the memory holds and whatever the clock is going to say: every
guest reads from the bus what it reads from the board, is stopped where the board stops it, and
leaves a bus that shows the board. -/
theorem guest_onBoard (isa : Isa) (keymap : Byte → Word) (pmem : Nat → Byte)
    (clock : Nat → Word × Word) {mainargs : List Byte} (hargs : mainargs.length < 4096) {α : Type}
    (guest : Guest isa.pmemBase α) :
    ∃ s, Ioe.initDevice mainargs (.start clock) = .ok ⟨⟩ s ∧
      Agrees (Bus.Shows isa.pmemBase) Any
        (guest.onBus keymap
          { Bus.zero with pmem, pmemMap := registerPmem isa.pmemBase, io := s.io })
        (guest.onBoard keymap (.initial pmem clock mainargs)) := by
  refine ⟨_, Ioe.initDevice_run mainargs rfl rfl, guest.agrees keymap ⟨rfl, fun _ _ => rfl, ?_⟩⟩
  exact initialized_shows pmem clock hargs

/-- A key is pressed; the guest reads it, puts it on the screen and a letter on the console. -/
def echoKey : Guest 0 Word :=
  .ask ⟨.sendKey .nemuRunning 4 true, trivial⟩ fun _ =>
  .ask ⟨.pioRead .l 0x60, trivial⟩ fun key =>
  .ask ⟨.paddrWrite 0xa0000004 key 4, by decide, by decide, fun _ _ hp _ => by cases hp; decide⟩ fun _ =>
  .ask ⟨.pioWrite .b 0x3f8 0x41, trivial⟩ fun _ => .ret key

/-- Without arguments, before anything has happened. -/
def blankBoard : Board := .initial (fun _ => 0) (fun _ => (0, 0)) []

def drawnBoard : Board := { blankBoard with vmem := store (fun _ => 0) 4 4 0x8001 }

theorem guest_onBoard_echoKey :
    ∃ s bus, Ioe.initDevice [] (.start fun _ => (0, 0)) = .ok ⟨⟩ s ∧
      echoKey.onBus (fun _ => 1) { Bus.zero with io := s.io } = .ok 0x8001 bus ∧
      bus.io.stdout = [0x41] ∧ bus.io.ioSpace 16388 = 0x01 := by
  have hpress : Board.serve 0 (fun _ => 1) (.sendKey .nemuRunning 4 true) blankBoard =
      .ok 0 { blankBoard with keys := [0x8001] } := rfl
  have hread : Board.serve 0 (fun _ => 1) (.pioRead .l 0x60) { blankBoard with keys := [0x8001] } =
      .ok 0x8001 blankBoard := rfl
  have hdraw : Board.serve 0 (fun _ => 1) (.paddrWrite 0xa0000004 0x8001 4) blankBoard =
      .ok 0 drawnBoard := rfl
  have hprint : Board.serve 0 (fun _ => 1) (.pioWrite .b 0x3f8 0x41) drawnBoard =
      .ok 0 { drawnBoard with stdout := [0x41] } := rfl
  have hrun : echoKey.onBoard (fun _ => 1) blankBoard = .ok 0x8001 { drawnBoard with stdout := [0x41] } :=
    (bind_ok hpress).trans ((bind_ok hread).trans ((bind_ok hdraw).trans (bind_ok hprint)))
  rcases @guest_onBoard .x86 (fun _ => 1) (fun _ => 0) (fun _ => (0, 0)) [] (by decide) _ echoKey with
    ⟨s, hinit, hagrees⟩
  change Agrees _ _ (echoKey.onBus _ { Bus.zero with io := s.io })
    (echoKey.onBoard (fun _ => 1) blankBoard) at hagrees
  rw [hrun] at hagrees
  rcases hagrees.exists_ok with ⟨bus, hbus, hshows⟩
  exact ⟨s, bus, hinit, hbus, hshows.io.stdout, hshows.io.vmem 4 (by decide)⟩

end Nemu
