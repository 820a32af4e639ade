import Nemu.Device.BoardCorrect
import Nemu.Lib.History

/-!
# Memory and devices over runs

What a run finds in a part of the machine, and what it leaves there, is a matter of the accesses that
lead there: the console has the bytes written to it, in order, through either address; a byte of a
memory is the one written to it last; the clock goes on once for every read of it; a key is read once,
in the order of the presses.
-/

namespace Nemu

open History LittleEndian Requests StateRules

/-! ## Events -/

/-- What an access does to a part of the machine; as a part, `none` is `pmem`. -/
inductive Event
  | stored (place : Option Port) (offset len : Nat) (data : Word)
  | fetched (place : Option Port) (offset len : Nat)
  | pressed (key : Word)

namespace Event

def bytes (offset len : Nat) (data : Word) : Write Nat Byte where
  covers i := decide (offset ≤ i ∧ i < offset + len)
  value i := byteOf data (i - offset)

/-- What an event writes to a memory. -/
def write? (memory : Option Port) : Event → Option (Write Nat Byte)
  | stored place offset len data => if place = memory then some (bytes offset len data) else none
  | fetched _ _ _ | pressed _ => none

/-- The console takes the first byte. -/
def printed? : Event → Option Byte
  | stored place _ _ data => if place = some .serial then some (byteOf data 0) else none
  | fetched _ _ _ | pressed _ => none

def isRead (p : Port) : Event → Bool
  | fetched place _ _ => place = some p
  | stored _ _ _ _ | pressed _ => false

/-- The keys that are left. -/
def keys (keys : List Word) : Event → List Word
  | pressed key => keys ++ [key]
  | fetched place _ _ => if place = some .keyboard then keys.tail else keys
  | stored _ _ _ _ => keys

theorem bytes_apply (f : Nat → Byte) (offset len : Nat) (data : Word) :
    (bytes offset len data).apply f = store f offset len data := by
  funext i
  rw [Write.apply, store_apply]
  exact if_congr decide_eq_true_iff rfl rfl

theorem latest_stored (f : Nat → Byte) (place : Option Port) (offset len : Nat) (data : Word) :
    latest f ([stored place offset len data].filterMap (write? place)) =
      store f offset len data := by
  have hwrite : write? place (stored place offset len data) = some (bytes offset len data) :=
    if_pos rfl
  rw [List.filterMap_cons_some hwrite, List.filterMap_nil, latest_cons, bytes_apply, latest_nil]

end Event

/-- A memory behind the events. -/
def written (memory : Option Port) (es : List Event) (f : Nat → Byte) : Nat → Byte :=
  latest f (es.filterMap (Event.write? memory))

def printedBytes (es : List Event) : List Byte := es.filterMap Event.printed?

def clockReads (es : List Event) : Nat := es.countP (Event.isRead .rtc)

def unread (es : List Event) (keys : List Word) : List Word := es.foldl Event.keys keys

/-- The event that an access is; none if it leads nowhere or the key is ignored. -/
def Access.event (base : Word) (keymap : Byte → Word) : Access → Option Event
  | .paddrRead addr len =>
      if mapInside (registerPmem base) addr then some (.fetched none (addr - base).toNat len)
      else (Port.ofMmio addr).map fun (p, offset) => .fetched (some p) offset len
  | .paddrWrite addr data len =>
      if mapInside (registerPmem base) addr then some (.stored none (addr - base).toNat len data)
      else (Port.ofMmio addr).map fun (p, offset) => .stored (some p) offset len data
  | .pioRead width addr =>
      (Port.ofPio addr).map fun (p, offset) => .fetched (some p) offset width.bytes
  | .pioWrite width addr data =>
      (Port.ofPio addr).map fun (p, offset) => .stored (some p) offset width.bytes data
  | .sendKey state scancode isKeydown =>
      ((KeyEvent.sendKey state scancode isKeydown).code keymap).map .pressed

/-- What an event returns, after the events `es` on the board. -/
def Board.answer (b : Board) (es : List Event) : Option Event → Word
  | some (.fetched none offset len) => load (written none es b.pmem) offset len
  | some (.fetched (some .argsrom) offset len) =>
      load (written (some .argsrom) es b.argsrom) offset len
  | some (.fetched (some .vmem) offset len) => load (written (some .vmem) es b.vmem) offset len
  | some (.fetched (some .rtc) _ len) => milliseconds (b.clock (clockReads es)) &&& lenMask len
  | some (.fetched (some .keyboard) _ len) => (unread es b.keys).headD keyNone &&& lenMask len
  | some (.fetched (some .serial) _ _) | some (.fetched (some .screen) _ _) => 0
  | some (.stored _ _ _ _) | some (.pressed _) | none => 0

/-! ## The board behind events -/

/-- `b'` is what the events make of `b`. -/
structure Board.After (es : List Event) (b b' : Board) : Prop where
  pmem : b'.pmem = written none es b.pmem
  argsrom : b'.argsrom = written (some .argsrom) es b.argsrom
  vmem : b'.vmem = written (some .vmem) es b.vmem
  stdout : b'.stdout = b.stdout ++ printedBytes es
  clock : ∀ n, b'.clock n = b.clock (clockReads es + n)
  keys : b'.keys = unread es b.keys

theorem written_append (memory : Option Port) (es es' : List Event) (f : Nat → Byte) :
    written memory (es ++ es') f = written memory es' (written memory es f) := by
  rw [written, List.filterMap_append, latest_append]
  rfl

theorem unread_append (es es' : List Event) (keys : List Word) :
    unread (es ++ es') keys = unread es' (unread es keys) := List.foldl_append

theorem clockReads_append (es es' : List Event) :
    clockReads (es ++ es') = clockReads es + clockReads es' := List.countP_append

namespace Board.After

variable {es es' : List Event} {b b' b'' : Board}

theorem refl (b : Board) : After [] b b where
  pmem := rfl
  argsrom := rfl
  vmem := rfl
  stdout := (List.append_nil _).symm
  clock n := (congrArg b.clock (Nat.zero_add n)).symm
  keys := rfl

theorem trans (h : After es b b') (h' : After es' b' b'') : After (es ++ es') b b'' where
  pmem := by rw [h'.pmem, h.pmem, written_append]
  argsrom := by rw [h'.argsrom, h.argsrom, written_append]
  vmem := by rw [h'.vmem, h.vmem, written_append]
  stdout := by
    rw [h'.stdout, h.stdout, List.append_assoc]
    exact congrArg (b.stdout ++ ·) List.filterMap_append.symm
  clock n := by rw [h'.clock, h.clock, clockReads_append, Nat.add_assoc]
  keys := by rw [h'.keys, h.keys, unread_append]

/-- An answer does not depend on where the history begins. -/
theorem answer (h : After es b b') (es' : List Event) (e : Option Event) :
    b'.answer es' e = b.answer (es ++ es') e := by
  rcases e with _ | ⟨_, _, _, _⟩ | ⟨_ | p, offset, len⟩ | _
  · rfl
  · rfl
  · change load (written none es' b'.pmem) offset len = _
    rw [h.pmem, ← written_append]
    rfl
  · cases p with
    | argsrom =>
        change load (written (some .argsrom) es' b'.argsrom) offset len = _
        rw [h.argsrom, ← written_append]
        rfl
    | vmem =>
        change load (written (some .vmem) es' b'.vmem) offset len = _
        rw [h.vmem, ← written_append]
        rfl
    | rtc =>
        change milliseconds (b'.clock (clockReads es')) &&& lenMask len = _
        rw [h.clock, ← clockReads_append]
        rfl
    | keyboard =>
        change (unread es' b'.keys).headD keyNone &&& lenMask len = _
        rw [h.keys, ← unread_append]
        rfl
    | serial => rfl
    | screen => rfl
  · rfl

end Board.After

/-! ## One access -/

section Step

variable {b b' : Board} {p : Port} {offset len : Nat} {data v : Word} {u : Unit}

/-- A run that returns is the event, and returns its answer. -/
def Board.Does (b b' : Board) (v : Word) (e : Option Event) : Prop :=
  v = b.answer [] e ∧ After e.toList b b'

theorem read_does (h : Board.read p offset len b = .ok v b') :
    b.Does b' v (some (.fetched (some p) offset len)) := by
  have hkeep : Board.After [] b b := .refl b
  cases p with
  | argsrom =>
      cases h
      exact ⟨rfl, rfl, rfl, rfl, hkeep.stdout, hkeep.clock, rfl⟩
  | vmem =>
      cases h
      exact ⟨rfl, rfl, rfl, rfl, hkeep.stdout, hkeep.clock, rfl⟩
  | rtc =>
      rcases bind_eq_ok.1 h with ⟨_, s, hassert, hrest⟩
      obtain ⟨-, rfl⟩ := cAssert_eq_ok.1 hassert
      cases hrest
      exact ⟨rfl, rfl, rfl, rfl, hkeep.stdout, fun n => congrArg s.clock (Nat.add_comm n 1), rfl⟩
  | keyboard =>
      rcases bind_eq_ok.1 h with ⟨_, s, hassert, hrest⟩
      obtain ⟨-, rfl⟩ := cAssert_eq_ok.1 hassert
      cases hrest
      exact ⟨rfl, rfl, rfl, rfl, hkeep.stdout, hkeep.clock, rfl⟩
  | serial => cases h
  | screen => cases h

theorem write_does (h : Board.write p offset len data b = .ok u b') :
    b.Does b' 0 (some (.stored (some p) offset len data)) := by
  have hkeep : Board.After [] b b := .refl b
  have hstore (f : Nat → Byte) := (Event.latest_stored f (some p) offset len data).symm
  cases p with
  | argsrom =>
      cases h
      exact ⟨rfl, rfl, hstore b.argsrom, rfl, hkeep.stdout, hkeep.clock, rfl⟩
  | vmem =>
      cases h
      exact ⟨rfl, rfl, rfl, hstore b.vmem, hkeep.stdout, hkeep.clock, rfl⟩
  | serial =>
      rcases bind_eq_ok.1 h with ⟨_, s, hassert, hrest⟩
      obtain ⟨-, rfl⟩ := cAssert_eq_ok.1 hassert
      cases hrest
      exact ⟨rfl, rfl, rfl, rfl, rfl, hkeep.clock, rfl⟩
  | rtc =>
      obtain ⟨-, rfl⟩ := cAssert_eq_ok.1 h
      exact ⟨rfl, rfl, rfl, rfl, hkeep.stdout, hkeep.clock, rfl⟩
  | screen => cases h
  | keyboard => cases h

theorem readAt_does {place : Option (Port × Nat)} (h : Board.readAt place len b = .ok v b') :
    b.Does b' v (place.map fun (p, offset) => .fetched (some p) offset len) := by
  cases place with
  | none => cases h
  | some place => exact read_does h

theorem writeAt_does {place : Option (Port × Nat)} (h : Board.writeAt place len data b = .ok u b') :
    b.Does b' 0 (place.map fun (p, offset) => .stored (some p) offset len data) := by
  cases place with
  | none => cases h
  | some place => exact write_does h

theorem paddrRead_does {base addr : Word} (h : Board.paddrRead base addr len b = .ok v b')
    (keymap : Byte → Word) : b.Does b' v ((Access.paddrRead addr len).event base keymap) := by
  unfold Board.paddrRead at h
  rw [Access.event]
  by_cases hin : mapInside (registerPmem base) addr = true
  · rw [if_pos hin] at h ⊢
    cases h
    exact ⟨rfl, rfl, rfl, rfl, (Board.After.refl b).stdout, (Board.After.refl b).clock, rfl⟩
  · rw [if_neg hin] at h ⊢
    exact readAt_does h

theorem paddrWrite_does {base addr : Word} (h : Board.paddrWrite base addr data len b = .ok u b')
    (keymap : Byte → Word) : b.Does b' 0 ((Access.paddrWrite addr data len).event base keymap) := by
  unfold Board.paddrWrite at h
  rw [Access.event]
  by_cases hin : mapInside (registerPmem base) addr = true
  · rw [if_pos hin] at h ⊢
    have hstore := (Event.latest_stored b.pmem none (addr - base).toNat len data).symm
    cases h
    exact ⟨rfl, hstore, rfl, rfl, (Board.After.refl b).stdout, (Board.After.refl b).clock, rfl⟩
  · rw [if_neg hin] at h ⊢
    exact writeAt_does h

theorem press_does {key : Option Word} (h : Board.press key b = .ok u b') :
    b.Does b' 0 (key.map .pressed) := by
  cases key with
  | none =>
      cases h
      exact ⟨rfl, .refl b⟩
  | some key =>
      rcases bind_eq_ok.1 h with ⟨_, s, hget, hrest⟩
      cases hget
      rcases bind_eq_ok.1 hrest with ⟨_, s', hassert, hmodify⟩
      obtain ⟨-, rfl⟩ := cAssert_eq_ok.1 hassert
      cases hmodify
      have hkeep : Board.After [] s' s' := .refl s'
      exact ⟨rfl, rfl, rfl, rfl, hkeep.stdout, hkeep.clock, rfl⟩

/-- One access. -/
theorem serve_does {base : Word} {keymap : Byte → Word} {a : Access}
    (h : Board.serve base keymap a b = .ok v b') : b.Does b' v (a.event base keymap) := by
  cases a with
  | paddrRead addr len => exact paddrRead_does h keymap
  | paddrWrite addr data len =>
      rcases bind_eq_ok.1 h with ⟨_, s, hwrite, hret⟩
      cases hret
      exact paddrWrite_does hwrite keymap
  | pioRead width addr => exact readAt_does h
  | pioWrite width addr data =>
      rcases bind_eq_ok.1 h with ⟨_, s, hwrite, hret⟩
      cases hret
      exact writeAt_does hwrite
  | sendKey state scancode isKeydown =>
      rcases bind_eq_ok.1 h with ⟨_, s, hpress, hret⟩
      cases hret
      exact press_does hpress

end Step

/-! ## Runs -/

section Run

variable {base : Word} (keymap : Byte → Word)

/-- The guest that makes these accesses, and returns what they return. -/
def Guest.ofList : List (BoardAccess base) → Guest base (List Word)
  | [] => .ret []
  | a :: as => .ask a fun v => (Guest.ofList as).bind fun vs => .ret (v :: vs)

def eventsOf (as : List (BoardAccess base)) : List Event :=
  as.filterMap fun a => a.access.event base keymap

theorem eventsOf_cons (a : BoardAccess base) (as : List (BoardAccess base)) :
    eventsOf keymap (a :: as) = (a.access.event base keymap).toList ++ eventsOf keymap as := by
  unfold eventsOf
  cases he : a.access.event base keymap with
  | none => exact List.filterMap_cons_none he
  | some e => exact List.filterMap_cons_some he

variable {keymap}

/-- By induction on the accesses; the history of those that follow begins where the first one ends. -/
theorem ofList_does {as : List (BoardAccess base)} {b b' : Board} {vs : List Word}
    (h : (Guest.ofList as).onBoard keymap b = .ok vs b') :
    (∀ i a, as[i]? = some a →
      vs[i]? = some (b.answer (eventsOf keymap (as.take i)) (a.access.event base keymap))) ∧
    b.After (eventsOf keymap as) b' := by
  induction as generalizing b vs with
  | nil =>
      cases h
      exact ⟨fun i a ha => (by cases ha), .refl _⟩
  | cons a as ih =>
      rcases bind_eq_ok.1 h with ⟨v, b₁, hserve, hrest⟩
      rw [Client.run_bind] at hrest
      rcases bind_eq_ok.1 hrest with ⟨ws, b₂, htail, hret⟩
      cases hret
      obtain ⟨hv, hfirst⟩ := serve_does hserve
      obtain ⟨hvalues, hafter⟩ := ih htail
      refine ⟨fun i c hc => ?_, ?_⟩
      · cases i with
        | zero =>
            cases hc
            exact congrArg some hv
        | succ i =>
            have hvalue : ws[i]? = some (b₁.answer (eventsOf keymap (as.take i))
                (c.access.event base keymap)) := hvalues i c hc
            rw [List.getElem?_cons_succ, List.take_succ_cons, eventsOf_cons, ← hfirst.answer]
            exact hvalue
      · rw [eventsOf_cons]
        exact hfirst.trans hafter

/-- The bus behind the events, told by the board before them. -/
structure Bus.After (es : List Event) (b : Board) (bus : Bus) : Prop where
  pmem : ∀ i < pmemSize, bus.pmem i = written none es b.pmem i
  argsrom : ∀ i < Port.argsrom.len,
    bus.io.ioSpace (Port.argsrom.space + i) = written (some .argsrom) es b.argsrom i
  vmem : ∀ i < Port.vmem.len,
    bus.io.ioSpace (Port.vmem.space + i) = written (some .vmem) es b.vmem i
  stdout : bus.io.stdout = b.stdout ++ printedBytes es
  clock : ∀ n, bus.io.timeofday (bus.io.timeofdayCalls + n) = b.clock (clockReads es + n)
  keys : bus.io.keyRing.Holds keyQueueLen (unread es b.keys)

theorem Bus.After.of_shows {es : List Event} {b b' : Board} {bus : Bus} (h : bus.Shows base b')
    (hafter : b.After es b') : bus.After es b where
  pmem i hi := by rw [h.pmem i hi, hafter.pmem]
  argsrom i hi := by rw [h.io.argsrom i hi, hafter.argsrom]
  vmem i hi := by rw [h.io.vmem i hi, hafter.vmem]
  stdout := by rw [h.io.stdout, hafter.stdout]
  clock n := by rw [h.io.clock, hafter.clock]
  keys := by
    rw [← hafter.keys]
    exact h.io.keys

/-- From any bus that shows a board. -/
theorem ofList_onBus {as : List (BoardAccess base)} {bus bus' : Bus} {b : Board} {vs : List Word}
    (hshows : bus.Shows base b) (hrun : (Guest.ofList as).onBus keymap bus = .ok vs bus') :
    (∀ i a, as[i]? = some a →
      vs[i]? = some (b.answer (eventsOf keymap (as.take i)) (a.access.event base keymap))) ∧
    bus'.After (eventsOf keymap as) b := by
  have hagrees := (Guest.ofList as).agrees keymap hshows
  generalize hboard : (Guest.ofList as).onBoard keymap b = r at hagrees
  rw [hrun] at hagrees
  cases hagrees with
  | ok hend =>
      obtain ⟨hvalues, hafter⟩ := ofList_does hboard
      exact ⟨hvalues, .of_shows hend hafter⟩

end Run

/-- Behind `init_device`, in every run of accesses that is not stopped: each access returns what the
accesses before it make of it, and the bus is left as all of them make it. -/
theorem bus_history (isa : Isa) (keymap : Byte → Word) (pmem : Nat → Byte)
    (clock : Nat → Word × Word) {mainargs : List Byte} (hargs : mainargs.length < 4096)
    (as : List (BoardAccess isa.pmemBase)) :
    ∃ s, Ioe.initDevice mainargs (.start clock) = .ok ⟨⟩ s ∧
      ∀ vs bus, (Guest.ofList as).onBus keymap
          { Bus.zero with pmem, pmemMap := registerPmem isa.pmemBase, io := s.io } = .ok vs bus →
        (∀ i a, as[i]? = some a →
          vs[i]? = some ((Board.initial pmem clock mainargs).answer (eventsOf keymap (as.take i))
            (a.access.event isa.pmemBase keymap))) ∧
        bus.After (eventsOf keymap as) (.initial pmem clock mainargs) := by
  refine ⟨_, Ioe.initDevice_run mainargs rfl rfl, fun vs bus hrun => ?_⟩
  exact ofList_onBus ⟨rfl, fun _ _ => rfl, initialized_shows pmem clock hargs⟩ hrun

/-- A letter through each address of the console, and a word through the memory. -/
def letters : List (BoardAccess 0x80000000) :=
  [⟨.pioWrite .b 0x3f8 0x41, trivial⟩,
    ⟨.paddrWrite 0x80000010 0x1234 4, by decide, by decide, fun _ _ hp _ => by cases hp⟩,
    ⟨.paddrWrite 0xa10003f8 0x42 1, by decide, by decide, fun _ _ hp hm => by cases hp; decide⟩,
    ⟨.paddrRead 0x80000010 2, by decide, by decide, fun _ _ hp _ => by cases hp⟩]

def letterBoard (stdout : List Byte) : Board :=
  { blankBoard with pmem := store (fun _ => 0) 16 4 0x1234, stdout }

theorem bus_history_letters :
    ∃ s bus, Ioe.initDevice [] (.start fun _ => (0, 0)) = .ok ⟨⟩ s ∧
      (Guest.ofList letters).onBus (fun _ => 1)
        { Bus.zero with pmemMap := registerPmem 0x80000000, io := s.io } =
          .ok [0, 0, 0, 0x1234] bus ∧
      bus.io.stdout = [0x41, 0x42] := by
  have hfirst : Board.serve 0x80000000 (fun _ => 1) (.pioWrite .b 0x3f8 0x41) blankBoard =
      .ok 0 { blankBoard with stdout := [0x41] } := rfl
  have hstore : Board.serve 0x80000000 (fun _ => 1) (.paddrWrite 0x80000010 0x1234 4)
      { blankBoard with stdout := [0x41] } = .ok 0 (letterBoard [0x41]) := rfl
  have hsecond : Board.serve 0x80000000 (fun _ => 1) (.paddrWrite 0xa10003f8 0x42 1)
      (letterBoard [0x41]) = .ok 0 (letterBoard [0x41, 0x42]) := rfl
  have hload : Board.serve 0x80000000 (fun _ => 1) (.paddrRead 0x80000010 2)
      (letterBoard [0x41, 0x42]) = .ok 0x1234 (letterBoard [0x41, 0x42]) := rfl
  have hboard : (Guest.ofList letters).onBoard (fun _ => 1) blankBoard =
      .ok [0, 0, 0, 0x1234] (letterBoard [0x41, 0x42]) :=
    (bind_ok hfirst).trans ((bind_ok hstore).trans ((bind_ok hsecond).trans (bind_ok hload)))
  rcases @bus_history .riscv32 (fun _ => 1) (fun _ => 0) (fun _ => (0, 0)) [] (by decide) letters with
    ⟨s, hinit, hruns⟩
  have hshows : Bus.Shows 0x80000000
      { Bus.zero with pmemMap := registerPmem 0x80000000, io := s.io } blankBoard := by
    refine ⟨rfl, fun _ _ => rfl, ?_⟩
    cases hinit.symm.trans (Ioe.initDevice_run [] rfl rfl)
    exact initialized_shows _ _ (by decide)
  have hagrees := (Guest.ofList letters).agrees (fun _ => 1) hshows
  rw [hboard] at hagrees
  rcases hagrees.exists_ok with ⟨bus, hbus, -⟩
  exact ⟨s, bus, hinit, hbus, (hruns _ _ hbus).2.stdout⟩

end Nemu
