import Nemu.Monitor.CpuLoop

/-!
# One turn under watchpoints

A turn of the loop of `cpu_exec` around an instruction that returns: what it leaves of the machine, and
whether a watched value stops the guest behind it.
-/

namespace Nemu

open StateRules

variable {R : Type}

/-! ## The parts of a turn -/

section Parts

variable {ref : Ref R} {deviceUpdate : OnIO Unit} {w : World R} {s : Machine} {npc : Word}

/-- The devices are brought up to date without an error; without `HAS_IOE` there is nothing to do. -/
def DeviceReturns (deviceUpdate : OnIO Unit) : Prop := ∀ io, ∃ io', deviceUpdate io = .ok ⟨⟩ io'

/-- Behind the instruction with this number, `asm_print` empties the trace or is no longer called. -/
def Machine.traced (s : Machine) (count : BitVec 64) : Machine :=
  if count < logMax then { s with trace := s.trace.ofBuffers [] [] } else s

@[simp] theorem Machine.traced_cpu (count : BitVec 64) : (s.traced count).cpu = s.cpu := by
  unfold Machine.traced
  split <;> rfl

@[simp] theorem Machine.traced_bus (count : BitVec 64) : (s.traced count).bus = s.bus := by
  unfold Machine.traced
  split <;> rfl

@[simp] theorem Machine.traced_decinfo (count : BitVec 64) :
    (s.traced count).decinfo = s.decinfo := by
  unfold Machine.traced
  split <;> rfl

@[simp] theorem Machine.traced_nemuState (count : BitVec 64) :
    (s.traced count).nemuState = s.nemuState := by
  unfold Machine.traced
  split <;> rfl

theorem executeStep_ok (hrun : execOnce w.machine = .ok npc s) :
    executeStep (.x86 false ref deviceUpdate) w =
      .ok ⟨⟩ { w with machine := s.traced w.gNrGuestInstr } := by
  have honce : onMachine execOnce w = .ok npc { w with machine := s } := by
    simp only [onMachine, hrun]
  have hexec : executeStep (.x86 false ref deviceUpdate) w = printStep { w with machine := s } := by
    rw [executeStep, bind_ok (get_run w)]
    exact bind_ok honce
  rw [hexec, printStep, bind_ok (get_run _), Machine.traced]
  split
  · rfl
  · rfl

theorem watchStep_ok {flag : Bool} {d : Debugger}
    (hcheck : Nemu.check w.machine.cpu w.debugger = .ok flag d) :
    watchStep w = .ok ⟨⟩ (if flag then (w.withDebugger d).stopped else w.withDebugger d) := by
  rw [watchStep_run (onDebugger_of_ok hcheck)]
  cases flag with
  | true => rfl
  | false => rfl

theorem onDevices_ok (hdevice : DeviceReturns deviceUpdate) (w : World R) :
    ∃ io, onDevices deviceUpdate w =
      .ok ⟨⟩ { w with machine := { w.machine with bus := { w.machine.bus with io } } } := by
  rcases hdevice w.machine.bus.io with ⟨io, hio⟩
  refine ⟨io, ?_⟩
  simp only [onDevices, onMachine, onBus, hio]

/-- What a turn leaves behind its instruction and its check. -/
structure Turned (s : Machine) (count : BitVec 64) (d : Debugger) (fired : Bool) (w' : World R) :
    Prop where
  cpu : w'.machine.cpu = s.cpu
  decinfo : w'.machine.decinfo = s.decinfo
  trace : w'.machine.trace = (s.traced count).trace
  bus : SamePmem d.bus w'.machine.bus
  nemuState : w'.machine.nemuState =
    if fired then { s.nemuState with state := .nemuStop } else s.nemuState
  wp : w'.wp = d.wp
  behind : w'.behind = d.behind
  count : w'.gNrGuestInstr = count + 1

theorem loopBody_turned (hdevice : DeviceReturns deviceUpdate) (hrun : execOnce w.machine = .ok npc s)
    {flag : Bool} {d : Debugger}
    (hcheck : Nemu.check s.cpu { w.debugger with bus := s.bus } = .ok flag d) :
    ∃ w', loopBody (.x86 false ref deviceUpdate) w = .ok ⟨⟩ w' ∧
      Turned s w.gNrGuestInstr d flag w' := by
  let w₁ : World R := { w with machine := s.traced w.gNrGuestInstr }
  have hexec : executeStep (.x86 false ref deviceUpdate) w = .ok ⟨⟩ w₁ := executeStep_ok hrun
  have hdebugger : w₁.debugger = { w.debugger with bus := s.bus } := by
    change { w.debugger with bus := (s.traced w.gNrGuestInstr).bus } = _
    rw [Machine.traced_bus]
  have hcheck₁ : Nemu.check w₁.machine.cpu w₁.debugger = .ok flag d := by
    rw [hdebugger, show w₁.machine.cpu = s.cpu from Machine.traced_cpu _]
    exact hcheck
  -- behind the check, in front of the count and the devices
  let w₂ := if flag then (w₁.withDebugger d).stopped else w₁.withDebugger d
  have hwatch : watchStep w₁ = .ok ⟨⟩ w₂ := watchStep_ok hcheck₁
  rcases onDevices_ok hdevice { w₂ with gNrGuestInstr := w₂.gNrGuestInstr + 1 } with ⟨io, hio⟩
  refine ⟨_, (bind_ok hexec).trans ((bind_ok hwatch).trans ((bind_ok (modify_run _ w₂)).trans hio)),
    ?_⟩
  have hstate : (s.traced w.gNrGuestInstr).nemuState = s.nemuState := Machine.traced_nemuState _
  cases flag with
  | true =>
      refine ⟨Machine.traced_cpu _, Machine.traced_decinfo _, rfl, ⟨rfl, rfl⟩, ?_, rfl, rfl, rfl⟩
      change { (s.traced w.gNrGuestInstr).nemuState with state := .nemuStop } = _
      rw [hstate]
      rfl
  | false =>
      exact ⟨Machine.traced_cpu _, Machine.traced_decinfo _, rfl, ⟨rfl, rfl⟩, hstate, rfl, rfl, rfl⟩

end Parts

/-! ## Watched values -/

/-- The values of the expressions for a processor, whatever else the debugger holds, over any bytes
with `B` behind the flags. -/
def Processor.Shows (B : BitVec 24 → Prop) (wp : WpState) (p : Processor) (l : List Nat)
    (vs : List Word) : Prop :=
  ∀ d : Debugger, d.wp = wp → d.bus.pmem = p.pmem → d.bus.pmemMap = registerPmem 0 →
    (∀ n, B (d.behind n)) →
      List.Forall₂
        (fun i v => ∃ d', callExpr p.cpu (wp.pool i).cstr 1 d = .ok (v, 1) d' ∧ d'.bus = d.bus) l vs

section Shows

variable {B : BitVec 24 → Prop} {wp : WpState} {active free : List Nat} {p : Processor}

theorem callExpr_behind {cpu : CPUState} {e : List Char} {success : Byte} {d d' : Debugger}
    {r : Word × Byte} (h : callExpr cpu e success d = .ok r d') :
    d'.behind = fun n => d.behind (n + 1) := by
  have hfinal := final_callExpr cpu e success d
  rw [h] at hfinal
  exact congrArg Debugger.behind hfinal

/-- They are the values in turn. -/
theorem Processor.Shows.inTurn {l : List Nat} {vs : List Word} (h : p.Shows B wp l vs) {d : Debugger}
    (hwp : d.wp = wp) (hpmem : d.bus.pmem = p.pmem) (hmap : d.bus.pmemMap = registerPmem 0)
    (hbehind : ∀ n, B (d.behind n)) : valuesInTurn p.cpu 1 d l = some vs := by
  induction l generalizing d vs with
  | nil =>
      cases h d hwp hpmem hmap hbehind
      rfl
  | cons i l ih =>
      cases h d hwp hpmem hmap hbehind with
      | @cons _ v _ vs hfirst _ =>
          rcases hfirst with ⟨d', hcall, hbus⟩
          have hrest : p.Shows B wp l vs := fun d hwp hpmem hmap hbehind => by
            cases h d hwp hpmem hmap hbehind with
            | cons _ hrest => exact hrest
          rw [← hwp] at hcall
          have hwp' : d'.wp = d.wp := (callExpr_sameWp _ _ _).ok hcall
          have hbehind' : ∀ n, B (d'.behind n) := fun n => by
            rw [callExpr_behind hcall]
            exact hbehind (n + 1)
          rw [valuesInTurn_cons hcall, ih hrest (hwp'.trans hwp) (by rw [hbus, hpmem])
            (by rw [hbus, hmap]) hbehind']
          rfl

/-- Bytes that a caller's flags have behind them stay such bytes, call after call. -/
def KeepsBehind (B : BitVec 24 → Prop) (d d' : Debugger) : Prop :=
  (∀ n, B (d.behind n)) → ∀ n, B (d'.behind n)

instance : IsPreorder Debugger (KeepsBehind B) where
  refl _ h := h
  trans _ _ _ h h' := h' ∘ h

theorem check_keepsBehind (cpu : CPUState) : Within (KeepsBehind B) (Nemu.check cpu) := by
  have hcall : ∀ e success, Within (KeepsBehind B) (callExpr cpu e success) := by
    intro e success d hd n
    rw [final_callExpr]
    exact hd (n + 1)
  exact Within.get.bind fun _ => checkLoop_within hcall (fun _ _ h => h) _ _ _ _

/-- What a check finds, and what it leaves alone. -/
structure Checked (wp : WpState) (active : List Nat) (vs : List Word) (d : Debugger) (flag : Bool)
    (d' : Debugger) : Prop where
  finds : flag = true ↔ Changed wp active.dropLast vs
  wp : d'.wp = wp
  bus : SamePmem d.bus d'.bus

theorem Processor.Shows.check {vs : List Word} (h : p.Shows B wp active.dropLast vs)
    (hlists : wp.Lists active free) (hne : active ≠ []) {d : Debugger} (hwp : d.wp = wp)
    (hpmem : d.bus.pmem = p.pmem) (hmap : d.bus.pmemMap = registerPmem 0)
    (hbehind : ∀ n, B (d.behind n)) :
    ∃ flag d', Nemu.check p.cpu d = .ok flag d' ∧ Checked wp active vs d flag d' := by
  have hturn := h.inTurn hwp hpmem hmap hbehind
  subst hwp
  have hrun : ∃ d', Nemu.check p.cpu d = .ok (decide (Changed d.wp active.dropLast vs)) d' :=
    (check_lists_iff hlists hne).2 ⟨vs, hturn, decide_eq_true_iff⟩
  rcases hrun with ⟨d', hrun⟩
  exact ⟨_, d', hrun, decide_eq_true_iff, (check_sameWp _).ok hrun,
    (check_bus (B := SamePmem) p.cpu).ok hrun⟩

end Shows

/-! ## One turn -/

section Turn

variable {B : BitVec 24 → Prop} {wp : WpState} {active free : List Nat} {ref : Ref R}
  {deviceUpdate : OnIO Unit}

/-- Between the instructions of `cpu_exec`. -/
structure World.Watching (B : BitVec 24 → Prop) (wp : WpState) (w : World R) : Prop where
  boundary : w.machine.Boundary
  wp : w.wp = wp
  behind : ∀ n, B (w.behind n)

/-- A turn whose instruction is known, from a trace that is empty. -/
structure TurnOf (B : BitVec 24 → Prop) (wp : WpState) (active : List Nat) (vs : List Word)
    (s : Machine) (w w' : World R) (fired : Bool) : Prop where
  fires : fired = true ↔ Changed wp active.dropLast vs
  watching : w'.Watching B wp
  printed : w.gNrGuestInstr < logMax → w'.machine.Printed
  processor : w'.machine.processor = s.processor
  nemuState : w'.machine.nemuState =
    if fired then { s.nemuState with state := .nemuStop } else s.nemuState
  count : w'.gNrGuestInstr = w.gNrGuestInstr + 1

theorem turn_of_shows (hdevice : DeviceReturns deviceUpdate) (hlists : wp.Lists active free)
    (hne : active ≠ []) {w : World R} (hw : w.Watching B wp) (hprinted : w.machine.Printed)
    {npc : Word} {s : Machine} (hrun : execOnce w.machine = .ok npc s) {vs : List Word}
    (hshows : s.processor.Shows B wp active.dropLast vs) :
    ∃ w' fired, loopBody (.x86 false ref deviceUpdate) w = .ok ⟨⟩ w' ∧
      TurnOf B wp active vs s w w' fired := by
  have hs : s.Boundary := hw.boundary.execOnce hrun
  rcases hshows.check hlists hne (d := { w.debugger with bus := s.bus }) hw.wp rfl hs.map
    hw.behind with ⟨flag, d, hcheck, hchecked⟩
  rcases @loopBody_turned R ref deviceUpdate w s npc hdevice hrun flag d hcheck with
    ⟨w', hbody, hturned⟩
  have hbus := trans_of SamePmem hchecked.bus hturned.bus
  -- what the instruction has left, through the check and the devices
  refine ⟨w', flag, hbody, hchecked.finds, ⟨⟨?_, ?_, ?_⟩, ?_, fun n => ?_⟩, fun hcount => ?_, ?_,
    hturned.nemuState, hturned.count⟩
  · exact hbus.map.trans hs.map
  · rw [hturned.decinfo]
    exact hs.isJmp
  · rw [hturned.decinfo]
    exact hs.isOperandSize16
  · exact hturned.wp.trans hchecked.wp
  · rw [hturned.behind]
    exact (check_keepsBehind (B := B) s.cpu).ok hcheck hw.behind n
  · -- while the log is not full, `asm_print` empties the strings
    have hempty := hprinted.execOnce hrun
    have htrace := hturned.trace
    rw [Machine.traced, if_pos hcount] at htrace
    refine ⟨htrace ▸ hempty.trace, fun op => ?_⟩
    rw [hturned.decinfo]
    exact hempty.texts op
  · rw [Machine.processor, hturned.cpu, hbus.pmem]
    rfl

end Turn

end Nemu
