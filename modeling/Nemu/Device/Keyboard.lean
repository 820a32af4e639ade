import Nemu.Cpu.Machine
import Nemu.Lib.RingBuffer
import Nemu.Memory.Registration

/-!
# The keyboard

`src/device/keyboard.c`: `send_key` puts codes into a ring buffer, and every guest read of the data
port takes one out.  The port is mapped in both address spaces.
-/

namespace Nemu

open LittleEndian StateRules

/-! ## Sending -/

def keydownMask : Word := 0x8000

/-- `send_key`, with the `keymap` that SDL's scancodes index. -/
def sendKey (keymap : Byte → Word) (state : RunState) (scancode : Byte) (isKeydown : Bool) :
    OnIO Unit := do
  if state = .nemuRunning ∧ keymap scancode ≠ keyNone then
    let amScancode := keymap scancode ||| (if isKeydown then keydownMask else 0)
    modify fun io =>
      { io with
        keyQueue := Function.update io.keyQueue io.keyR amScancode
        keyR := (io.keyR + 1) % keyQueueLen }
    let io ← get
    -- "key queue overflow!", found out when the code is in the queue already
    cAssert (io.keyR != io.keyF)
  else
    pure ()

/-! ## Port I/O -/

/-- `pio_read_common` -/
def pioReadCommon (addr : BitVec 16) (len : Nat) : OnBus Word := do
  cAssert (decide (addr.toNat + len - 1 < portIoSpaceMax))
  let bus ← get
  let map ← findMapByAddr bus.io.pioMaps (addr.setWidth 32)
  cAssert map.isSome
  mapRead (addr.setWidth 32) len map

def pioReadL (addr : BitVec 16) : OnBus Word := pioReadCommon addr 4

/-! ## Events -/

/-- What can happen to the keyboard. -/
inductive KeyEvent
  | sendKey (state : RunState) (scancode : Byte) (isKeydown : Bool)
  | pioRead
  | mmioRead
  deriving DecidableEq, Repr

def onIO {α : Type} (x : OnIO α) : OnBus α := fun bus =>
  match x bus.io with
  | .ok a io => .ok a { bus with io }
  | .error e io => .error e { bus with io }

theorem onIO_ok {α : Type} {x : OnIO α} {bus : Bus} {a : α} {io : IOState}
    (h : x bus.io = .ok a io) : onIO x bus = .ok a { bus with io } := by
  unfold onIO
  simp only [h]

theorem onIO_error {α : Type} {x : OnIO α} {bus : Bus} {e : Fault} {io : IOState}
    (h : x bus.io = .error e io) : onIO x bus = .error e { bus with io } := by
  unfold onIO
  simp only [h]

namespace KeyEvent

variable (keymap : Byte → Word)

/-- The event, and the value that a read returns. -/
def run : KeyEvent → OnBus (List Word)
  | .sendKey state scancode isKeydown => do
      onIO (Nemu.sendKey keymap state scancode isKeydown)
      return []
  | .pioRead => do return [← pioReadL 0x60]
  | .mmioRead => do return [← paddrRead 0xa1000060 4]

/-- The code that `send_key` accepts. -/
def code : KeyEvent → Option Word
  | .sendKey state scancode isKeydown =>
      if state = .nemuRunning ∧ keymap scancode ≠ keyNone then
        some (keymap scancode ||| (if isKeydown then keydownMask else 0))
      else none
  | .pioRead => none
  | .mmioRead => none

def IsRead : KeyEvent → Prop
  | .sendKey _ _ _ => False
  | .pioRead => True
  | .mmioRead => True

end KeyEvent

/-- Events in order, with the values of the reads. -/
def runKeys (keymap : Byte → Word) : List KeyEvent → OnBus (List Word)
  | [] => return []
  | e :: es => do
      let vs ← e.run keymap
      return vs ++ (← runKeys keymap es)

/-- The codes that the events bring, in order. -/
def accepted (keymap : Byte → Word) (es : List KeyEvent) : List Word :=
  es.filterMap (KeyEvent.code keymap)

/-- The codes that reads have returned. -/
def received (vs : List Word) : List Word := vs.filter (· ≠ keyNone)

theorem accepted_cons (keymap : Byte → Word) (e : KeyEvent) (es : List KeyEvent) :
    accepted keymap (e :: es) = (e.code keymap).toList ++ accepted keymap es := by
  unfold accepted
  cases hc : e.code keymap with
  | none => rw [List.filterMap_cons_none hc]; rfl
  | some c => rw [List.filterMap_cons_some hc]; rfl

theorem received_append (vs ws : List Word) : received (vs ++ ws) = received vs ++ received ws :=
  List.filter_append vs ws

/-! ## The registered keyboard -/

def IOState.keyRing (io : IOState) : RingBuffer Word := ⟨io.keyQueue, io.keyF, io.keyR⟩

/-- Both addresses of the data port lead to the keyboard's space. -/
structure Bus.HasKeyboard (bus : Bus) : Prop where
  pio : bus.io.pioMaps.find? (fun map => mapInside map 0x60) =
    some (deviceMap 0x60 bus.io.i8042DataPortBase 4 (some .i8042DataIoHandler))
  mmio : bus.io.mmioMaps.find? (fun map => mapInside map 0xa1000060) =
    some (deviceMap 0xa1000060 bus.io.i8042DataPortBase 4 (some .i8042DataIoHandler))
  notPmem : mapInside bus.pmemMap 0xa1000060 = false

/-- The keyboard with the unread codes in its buffer. -/
structure Bus.Unread (bus : Bus) (codes : List Word) : Prop extends bus.HasKeyboard where
  ring : bus.io.keyRing.Holds keyQueueLen codes
  code : ∀ c ∈ codes, c ≠ keyNone

namespace Bus.Unread

variable {keymap : Byte → Word} {bus : Bus} {codes : List Word}

theorem skipRef (h : bus.Unread codes) : bus.skipRef.Unread codes :=
  ⟨⟨h.pio, h.mmio, h.notPmem⟩, h.ring, h.code⟩

/-- What a read returns, if it is not 0, is the oldest unread code. -/
theorem received_headD (h : bus.Unread codes) :
    codes = received [codes.headD keyNone] ++ codes.tail := by
  cases codes with
  | nil => rfl
  | cons c codes =>
      have hc : c ≠ keyNone := h.code c List.mem_cons_self
      simp [received, hc]

theorem headD_eq_keyNone_iff (h : bus.Unread codes) : codes.headD keyNone = keyNone ↔ codes = [] := by
  cases codes with
  | nil => exact ⟨fun _ => rfl, fun _ => rfl⟩
  | cons c codes =>
      exact ⟨fun heq => absurd heq (h.code c List.mem_cons_self), fun heq => by cases heq⟩

/-! ## Reading -/

/-- The handler puts the oldest code, or none, into the data port. -/
theorem i8042DataIoHandler_run (h : bus.Unread codes) :
    ∃ io, i8042DataIoHandler 0 4 false bus.io = .ok ⟨⟩ io ∧
      Bus.Unread { bus with io } codes.tail ∧
      ∃ f, io.ioSpace = LittleEndian.store f bus.io.i8042DataPortBase 4 (codes.headD keyNone) := by
  cases codes with
  | nil =>
      have hempty : bus.io.keyF = bus.io.keyR := h.ring.isEmpty_iff.2 rfl
      refine ⟨bus.io.setPort bus.io.i8042DataPortBase keyNone, ?_, ?_, bus.io.ioSpace, rfl⟩
      · change EStateM.Result.ok _ (if bus.io.keyF ≠ bus.io.keyR then _ else _) = _
        rw [if_neg (fun hne => hne hempty)]
      · exact ⟨⟨h.pio, h.mmio, h.notPmem⟩, h.ring, h.code⟩
  | cons c codes =>
      have hne : bus.io.keyF ≠ bus.io.keyR := fun heq => by cases h.ring.isEmpty_iff.1 heq
      rcases h.ring.pop with ⟨hfirst, hrest⟩
      refine ⟨{ bus.io.setPort bus.io.i8042DataPortBase (bus.io.keyQueue bus.io.keyF) with
        keyF := (bus.io.keyF + 1) % keyQueueLen }, ?_, ?_, bus.io.ioSpace, ?_⟩
      · change EStateM.Result.ok _ (if bus.io.keyF ≠ bus.io.keyR then _ else _) = _
        rw [if_pos hne]
      · exact ⟨⟨h.pio, h.mmio, h.notPmem⟩, hrest, fun d hd => h.code d (List.mem_cons_of_mem c hd)⟩
      · change LittleEndian.store _ _ 4 (bus.io.keyQueue bus.io.keyF) = _
        rw [show bus.io.keyQueue bus.io.keyF = c from hfirst]
        rfl

/-- A read through either map takes the oldest code. -/
theorem mapRead_run (h : bus.Unread codes) {addr : Word}
    (hin : mapInside (deviceMap addr bus.io.i8042DataPortBase 4 (some .i8042DataIoHandler)) addr =
      true) :
    Ensures (mapRead addr 4
      (some (deviceMap addr bus.io.i8042DataPortBase 4 (some .i8042DataIoHandler)))) bus
      fun v bus' => v = codes.headD keyNone ∧ bus'.Unread codes.tail := by
  rcases h.i8042DataIoHandler_run with ⟨io, hhandler, hunread, f, hspace⟩
  have hcallback : invokeCallback (some .i8042DataIoHandler) (addr - addr) 4 false bus =
      .ok ⟨⟩ { bus with io } := by
    rw [BitVec.sub_self]
    exact invokeCallback_ok hhandler
  have hload : Bus.load { bus with io } ⟨.ioSpace bus.io.i8042DataPortBase, 0, 4⟩ &&& lenMask 4 =
      codes.headD keyNone := by
    have hmask : Bus.load { bus with io } ⟨.ioSpace bus.io.i8042DataPortBase, 0, 4⟩ &&& lenMask 4 =
        LittleEndian.load (fun i => io.ioSpace (bus.io.i8042DataPortBase + i)) 0 4 :=
      load_four_and_mask _ _ _ (Nat.le_refl 4)
    -- the handler has stored the code, and the load finds the same four bytes
    rw [hmask, hspace, ← load_store f bus.io.i8042DataPortBase (codes.headD keyNone)]
    exact load_shift fun i _ => by rw [Nat.zero_add, load_store]
  refine ⟨_, { bus with io }, ?_, hload, hunread⟩
  rw [Nemu.mapRead_run (by decide) hin]
  refine (bind_ok hcallback).trans ?_
  change EStateM.Result.ok (Bus.load _ ⟨_, (addr - addr).toNat, 4⟩ &&& lenMask 4) _ = _
  rw [BitVec.sub_self]
  rfl

/-- Either way, a read returns the oldest code. -/
theorem read_run (h : bus.Unread codes) {e : KeyEvent} (he : e.IsRead) :
    Ensures (e.run keymap) bus fun vs bus' => vs = [codes.headD keyNone] ∧ bus'.Unread codes.tail := by
  have hfind : ∀ {maps : List IOMap} {addr : Word} {map : IOMap},
      maps.find? (fun map => mapInside map addr) = some map →
      findMapByAddr maps addr bus = .ok (some map) bus.skipRef := by
    intro maps addr map hmap
    rw [findMapByAddr, hmap]
    rfl
  cases e with
  | sendKey state scancode isKeydown => exact he.elim
  | pioRead =>
      refine Ensures.bind (P := fun v bus' => v = codes.headD keyNone ∧ bus'.Unread codes.tail) ?_ ?_
      · refine Ensures.step (cAssert_true_run bus) (Ensures.step (get_run bus) ?_)
        refine Ensures.step (hfind h.pio) (Ensures.step (cAssert_true_run _) ?_)
        -- port I/O marks the instruction to be skipped by the reference
        exact h.skipRef.mapRead_run rfl
      · exact fun v bus' hv => ⟨_, _, rfl, by rw [hv.1], hv.2⟩
  | mmioRead =>
      refine Ensures.bind (P := fun v bus' => v = codes.headD keyNone ∧ bus'.Unread codes.tail) ?_ ?_
      · refine Ensures.step (get_run bus) ?_
        -- an address outside `pmem` is looked up among the maps
        rw [h.notPmem, if_neg Bool.false_ne_true]
        refine Ensures.step ((bind_ok (get_run bus)).trans (hfind h.mmio)) ?_
        exact h.skipRef.mapRead_run rfl
      · exact fun v bus' hv => ⟨_, _, rfl, by rw [hv.1], hv.2⟩

/-! ## Sending -/

theorem send_run (h : bus.Unread codes) {e : KeyEvent} {c : Word} (hc : e.code keymap = some c) :
    (codes.length + 1 < keyQueueLen →
      ∃ bus', e.run keymap bus = .ok [] bus' ∧ bus'.Unread (codes ++ [c])) ∧
    (codes.length + 1 = keyQueueLen → ∃ bus', e.run keymap bus = .error .abort bus') := by
  cases e with
  | pioRead => cases hc
  | mmioRead => cases hc
  | sendKey state scancode isKeydown =>
      rw [KeyEvent.code] at hc
      split at hc
      case isFalse => cases hc
      case isTrue haccept =>
        cases hc
        -- what the queue looks like when the assertion is reached
        let c := keymap scancode ||| (if isKeydown then keydownMask else 0)
        let io : IOState :=
          { bus.io with
            keyQueue := Function.update bus.io.keyQueue bus.io.keyR c
            keyR := (bus.io.keyR + 1) % keyQueueLen }
        have hsend : Nemu.sendKey keymap state scancode isKeydown bus.io =
            cAssert (io.keyR != io.keyF) io := by
          rw [Nemu.sendKey, if_pos haccept, bind_ok (modify_run _ bus.io)]
          exact bind_ok (get_run io)
        have hfull : io.keyR = io.keyF ↔ codes.length + 1 = keyQueueLen :=
          h.ring.full_iff (a := c)
        constructor
        · -- there is room, and the indices differ
          intro hlt
          have hne : (io.keyR != io.keyF) = true := by
            rw [bne_iff_ne, ne_eq, hfull]
            exact Nat.ne_of_lt hlt
          refine ⟨{ bus with io }, ?_, ⟨h.pio, h.mmio, h.notPmem⟩, h.ring.push hlt, ?_⟩
          · refine (bind_ok (onIO_ok (a := ⟨⟩) ?_)).trans rfl
            rw [hsend, hne]
            rfl
          · intro d hd
            rcases List.mem_append.1 hd with hd | hd
            · exact h.code d hd
            · rw [List.mem_singleton.1 hd]
              -- a code with the mask set over it is not 0 either
              intro hzero
              exact haccept.2 (BitVec.or_eq_zero_iff.1 hzero).1
        · -- the new code took the last free cell, and the indices are equal
          intro heq
          have hfired : (io.keyR != io.keyF) = false := by
            rw [bne_eq_false_iff_eq]
            exact hfull.2 heq
          refine ⟨{ bus with io }, bind_error (onIO_error ?_)⟩
          rw [hsend, hfired]
          rfl

theorem ignored_run (bus : Bus) {e : KeyEvent} (hread : ¬ e.IsRead) (hc : e.code keymap = none) :
    e.run keymap bus = .ok [] bus := by
  cases e with
  | pioRead => exact absurd trivial hread
  | mmioRead => exact absurd trivial hread
  | sendKey state scancode isKeydown =>
      rw [KeyEvent.code] at hc
      split at hc
      case isTrue => cases hc
      case isFalse hignored =>
        refine (bind_ok (onIO_ok (a := ⟨⟩) ?_)).trans rfl
        rw [Nemu.sendKey, if_neg hignored]
        rfl

/-! ## Runs -/

/-- What was unread before an event and what it brings is what it returns and what is unread
after it. -/
theorem event_ok (h : bus.Unread codes) {e : KeyEvent} {vs : List Word} {b : Bus}
    (hrun : e.run keymap bus = .ok vs b) :
    ∃ codes', b.Unread codes' ∧ codes ++ (e.code keymap).toList = received vs ++ codes' := by
  by_cases hread : e.IsRead
  · rcases h.read_run hread with ⟨vs', b', hrun', rfl, hunread⟩
    cases hrun.symm.trans hrun'
    have hcode : e.code keymap = none := by
      cases e with
      | sendKey state scancode isKeydown => exact hread.elim
      | pioRead => rfl
      | mmioRead => rfl
    refine ⟨codes.tail, hunread, ?_⟩
    rw [hcode, Option.toList_none, List.append_nil]
    exact h.received_headD
  · cases hc : e.code keymap with
    | none =>
        cases hrun.symm.trans (ignored_run bus hread hc)
        exact ⟨codes, h, List.append_nil codes⟩
    | some c =>
        -- the run returned, so that the queue was not full
        rcases Nat.lt_or_eq_of_le (Nat.succ_le_of_lt h.ring.length) with hlt | hfull
        · rcases (h.send_run hc).1 hlt with ⟨b', hrun', hunread⟩
          cases hrun.symm.trans hrun'
          exact ⟨codes ++ [c], hunread, rfl⟩
        · rcases (h.send_run hc).2 hfull with ⟨b', hrun'⟩
          cases hrun.symm.trans hrun'

theorem runKeys_ok (h : bus.Unread codes) {es : List KeyEvent} {vs : List Word} {b : Bus}
    (hrun : runKeys keymap es bus = .ok vs b) :
    ∃ codes', b.Unread codes' ∧ codes ++ accepted keymap es = received vs ++ codes' := by
  induction es generalizing bus codes vs with
  -- on the events, with what is unread as the invariant
  | nil =>
      cases hrun
      exact ⟨codes, h, List.append_nil codes⟩
  | cons e es ih =>
      rcases bind_eq_ok.1 hrun with ⟨vs₁, bus₁, hevent, hrest⟩
      rcases bind_eq_ok.1 hrest with ⟨vs₂, bus₂, hrun₂, hpure⟩
      cases hpure
      rcases h.event_ok hevent with ⟨codes₁, h₁, heq₁⟩
      rcases ih h₁ hrun₂ with ⟨codes₂, h₂, heq₂⟩
      refine ⟨codes₂, h₂, ?_⟩
      calc codes ++ accepted keymap (e :: es)
          = (codes ++ (e.code keymap).toList) ++ accepted keymap es := by
            rw [accepted_cons, List.append_assoc]
        _ = received vs₁ ++ (codes₁ ++ accepted keymap es) := by rw [heq₁, List.append_assoc]
        _ = received (vs₁ ++ vs₂) ++ codes₂ := by
            rw [heq₂, received_append, List.append_assoc]

end Bus.Unread

/-- A run of events from the empty queue that the assertion has not stopped, and what any next
event does. -/
theorem keyboard_fifo (keymap : Byte → Word) {bus b : Bus} (h : bus.Unread [])
    {es : List KeyEvent} {vs : List Word} (hrun : runKeys keymap es bus = .ok vs b) :
    received vs <+: accepted keymap es ∧
    (∀ e : KeyEvent, e.IsRead → ∃ v b', e.run keymap b = .ok [v] b' ∧
      received (vs ++ [v]) <+: accepted keymap es ∧
      (v = keyNone ↔ received vs = accepted keymap es)) ∧
    (∀ e : KeyEvent, (e.code keymap).isSome →
      if (accepted keymap es).length + 1 = (received vs).length + keyQueueLen then
        ∃ b', e.run keymap b = .error .abort b'
      else ∃ b', e.run keymap b = .ok [] b') ∧
    (∀ e : KeyEvent, ¬ e.IsRead → e.code keymap = none → e.run keymap b = .ok [] b) := by
  rcases h.runKeys_ok hrun with ⟨codes, hb, heq⟩
  rw [List.nil_append] at heq
  refine ⟨⟨codes, heq.symm⟩, fun e he => ?_, fun e he => ?_,
    fun e hread hc => Bus.Unread.ignored_run b hread hc⟩
  · rcases @Bus.Unread.read_run keymap _ _ hb e he with ⟨vs', b', hread, rfl, -⟩
    refine ⟨codes.headD keyNone, b', hread, ⟨codes.tail, ?_⟩, ?_⟩
    · rw [heq, received_append, List.append_assoc, ← hb.received_headD]
    · rw [hb.headD_eq_keyNone_iff, heq, List.self_eq_append_right]
  · rcases Option.isSome_iff_exists.1 he with ⟨c, hc⟩
    have hlength := hb.ring.length
    -- what is unread is what was accepted and not yet received
    have hcount : (accepted keymap es).length = (received vs).length + codes.length := by
      rw [heq, List.length_append]
    split
    case isTrue hfull => exact (hb.send_run hc).2 (by omega)
    case isFalse hroom =>
      rcases (hb.send_run hc).1 (by omega) with ⟨b', hsend, -⟩
      exact ⟨b', hsend⟩

/-- `init_device` puts the data port behind the frame buffer. -/
theorem initDevice_unread :
    ∃ devs s, registerAll initDevice .zero = .ok devs s ∧
      Bus.Unread { Bus.zero with io := { s.io with i8042DataPortBase := 540672 } } [] := by
  refine ⟨_, _, registerAll_cons (bind_ok (newSpace_run (p := 4096) (by decide) (by decide)))
    (registerAll_cons (bind_ok (newSpace_run (p := 8192) (by decide) (by decide)))
    (registerAll_cons (bind_ok (newSpace_run (p := 12288) (by decide) (by decide)))
    (registerAll_cons (bind_ok (newSpace_run (p := 16384) (by decide) (by decide)))
    (registerAll_cons (bind_ok (newSpace_run (p := 540672) (by decide) (by decide)))
    (registerAll_cons (bind_ok (newSpace_run (p := 544768) (by decide) (by decide))) rfl))))), ?_⟩
  exact ⟨⟨rfl, rfl, rfl⟩, RingBuffer.holds_nil (by decide) _, by simp⟩

/-- A key that is pressed and read once; the next read finds nothing. -/
theorem keyboard_fifo_initDevice :
    ∃ devs s b, registerAll initDevice .zero = .ok devs s ∧
      runKeys (fun _ => 1) [.sendKey .nemuRunning 4 true, .mmioRead]
        { Bus.zero with io := { s.io with i8042DataPortBase := 540672 } } = .ok [0x8001] b ∧
      ∃ v b', KeyEvent.pioRead.run (fun _ => 1) b = .ok [v] b' ∧ v = keyNone := by
  rcases initDevice_unread with ⟨devs, s, hdevs, hbus⟩
  let press := KeyEvent.sendKey .nemuRunning 4 true
  have hcode : press.code (fun _ => 1) = some 0x8001 := rfl
  rcases (hbus.send_run hcode).1 (by decide) with ⟨b₁, hsend, h₁⟩
  rcases @Bus.Unread.read_run (fun _ => 1) _ _ h₁ .mmioRead trivial with ⟨_, b₂, hread, rfl, -⟩
  have hrun : runKeys (fun _ => 1) [press, .mmioRead]
      { Bus.zero with io := { s.io with i8042DataPortBase := 540672 } } = .ok [0x8001] b₂ := by
    refine (bind_ok hsend).trans ?_
    exact bind_ok (bind_ok hread)
  rcases (keyboard_fifo _ hbus hrun).2.1 .pioRead trivial with ⟨v, b', hnext, -, hv⟩
  exact ⟨devs, s, b₂, hdevs, hrun, v, b', hnext, hv.2 (by decide)⟩

end Nemu
