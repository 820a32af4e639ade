import Nemu.Expr.EvalRules
import Nemu.Monitor.CpuExec
import Nemu.Monitor.WatchpointPool

/-!
# Relations that the debugger keeps

The debugger reaches the machine through reads of guest memory only.  Whatever preorder holds
across an access to the bus therefore holds across every debugger function, and carries over to
the statements of `cpu_exec` that call them.
-/

namespace Nemu

open StateRules

/-! ## Expressions -/

section Bus

variable {B : Bus → Bus → Prop} [BusReads B]

/-- `B` holds between the buses of two states. -/
def EvalBus (B : Bus → Bus → Prop) (s s' : EvalState) : Prop := B s.bus s'.bus

instance : IsPreorder EvalState (EvalBus B) where
  refl s := refl_of B s.bus
  trans _ _ _ h h' := trans_of B h h'

instance : EvalRel (EvalBus B) where
  log _ _ := fun s => refl_of B s.bus
  clearSuccess := fun s => refl_of B s.bus
  zeroDivisor := fun s => refl_of B s.bus
  read addr len := by
    intro s
    rw [final_liftBus]
    exact paddrRead_within (B := B) addr len s.bus

def ExprBus (B : Bus → Bus → Prop) (s s' : ExprState) : Prop := B s.eval.bus s'.eval.bus

theorem expr_bus (cpu : CPUState) (e : List Char) : Within (ExprBus B) (expr cpu e) :=
  expr_within (R := EvalBus B) cpu e

/-! ## Watchpoints -/

def DebuggerBus (B : Bus → Bus → Prop) (d d' : Debugger) : Prop := B d.bus d'.bus

instance : IsPreorder Debugger (DebuggerBus B) where
  refl d := refl_of B d.bus
  trans _ _ _ h h' := trans_of B h h'

theorem callExpr_bus (cpu : CPUState) (e : List Char) (success : Byte) :
    Within (DebuggerBus B) (callExpr cpu e success) := by
  intro d
  rw [final_callExpr]
  exact expr_bus (B := B) cpu e ⟨d.buf, ⟨flagWord (d.behind 0) success, d.bus, d.evalMessages⟩⟩

/-- What works on the pool alone. -/
theorem modifyWp_bus (f : WpState → WpState) : Within (DebuggerBus B) (modifyWp f) :=
  fun d => refl_of B d.bus

theorem logWp_bus (m : WpMessage) : Within (DebuggerBus B) (logWp m) :=
  fun d => refl_of B d.bus

theorem storeNext_bus (p v : Option Nat) : Within (DebuggerBus B) (storeNext p v) :=
  (node_within p).bind fun _ => modifyWp_bus _

theorem lastNode_bus (fuel : Nat) (q : Option Nat) : Within (DebuggerBus B) (lastNode fuel q) := by
  induction fuel generalizing q with
  | zero => exact Within.throw _
  | succ fuel ih => exact (node_within q).bind fun wp => Within.ite (ih _) (Within.pure _)

theorem appendNode_bus (list p : Option Nat) {setList : Option Nat → OnDebugger Unit}
    (h : ∀ q, Within (DebuggerBus B) (setList q)) :
    Within (DebuggerBus B) (appendNode list p setList) :=
  Within.ite (h p) ((lastNode_bus _ _).bind fun q => storeNext_bus q p)

theorem watch_bus (cpu : CPUState) (args : Option (List Char)) (p : Option Nat) :
    Within (DebuggerBus B) (watch cpu args p) := by
  cases args with
  | none => exact Within.throw _
  | some e =>
      refine (modifyWp_bus _).bind fun _ => (callExpr_bus cpu e 1).bind fun r => ?_
      refine (modifyWp_bus _).bind fun _ => (node_within p).bind fun wp => ?_
      exact logWp_bus _

theorem newWp_bus (cpu : CPUState) (args : Option (List Char)) :
    Within (DebuggerBus B) (newWp cpu args) := by
  refine Within.get.bind fun s => Within.ite (Within.throw _) ?_
  refine (node_within _).bind fun wp => (modifyWp_bus _).bind fun _ => ?_
  refine (storeNext_bus _ _).bind fun _ => Within.get.bind fun s => ?_
  exact (appendNode_bus _ _ fun _ => modifyWp_bus _).bind fun _ => watch_bus cpu args _

theorem freeWp_bus (p : Option Nat) : Within (DebuggerBus B) (freeWp p) := by
  refine (node_within p).bind fun wp => (logWp_bus _).bind fun _ => ?_
  refine (storeNext_bus _ _).bind fun _ => Within.get.bind fun s => ?_
  exact appendNode_bus _ _ fun _ => modifyWp_bus _

theorem deleteLoop_bus (num : Int) (fuel : Nat) (p : Option Nat) :
    Within (DebuggerBus B) (deleteLoop num fuel p) := by
  induction fuel generalizing p with
  | zero => exact Within.throw _
  | succ fuel ih =>
      refine (node_within p).bind fun wp => Within.ite ?_ (Within.pure _)
      refine (node_within _).bind fun temp => Within.ite ?_ (ih _)
      exact (storeNext_bus _ _).bind fun _ => (freeWp_bus _).bind fun _ => Within.pure _

theorem deleteWp_bus (num : Int) : Within (DebuggerBus B) (deleteWp num) := by
  have hreport : ∀ isFound : Bool, Within (DebuggerBus B)
      (if isFound then pure () else logWp (.notFound num)) :=
    fun _ => Within.ite (Within.pure _) (logWp_bus _)
  refine Within.get.bind fun s => (node_within _).bind fun wp => Within.ite ?_ ?_
  · refine (modifyWp_bus _).bind fun _ => (freeWp_bus _).bind fun _ => ?_
    exact Within.bind (Within.pure true) hreport
  · exact (deleteLoop_bus _ _ _).bind hreport

theorem check_bus (cpu : CPUState) : Within (DebuggerBus B) (Nemu.check cpu) :=
  Within.get.bind fun _ => checkLoop_within (callExpr_bus cpu) logWp_bus _ _ _ _

end Bus

/-- No condition on the bus. -/
def AnyBus (_ _ : Bus) : Prop := True

instance : BusRel AnyBus where
  refl _ := trivial
  trans _ _ _ _ _ := trivial
  pmem _ _ := trivial
  io _ _ := trivial
  skipRef _ := trivial

/-- `pmem`, and where it is. -/
structure SamePmem (bus bus' : Bus) : Prop where
  pmem : bus'.pmem = bus.pmem
  map : bus'.pmemMap = bus.pmemMap

instance : BusReads SamePmem where
  refl _ := ⟨rfl, rfl⟩
  trans _ _ _ h h' := ⟨h'.pmem.trans h.pmem, h'.map.trans h.map⟩
  io _ _ := ⟨rfl, rfl⟩
  skipRef _ := ⟨rfl, rfl⟩

/-! ## The world -/

/-- A preorder that holds across what the debugger does when `B` holds between the buses. -/
class WorldRel {R : Type} (B : outParam (Bus → Bus → Prop)) (W : World R → World R → Prop) : Prop
    extends IsPreorder (World R) W where
  debugger : ∀ w d, B w.machine.bus d.bus → W w (w.withDebugger d)
  bus : ∀ w bus, B w.machine.bus bus → W w { w with machine := { w.machine with bus } }

/-- It also holds across what `difftest_step` does. -/
class DiffRel {R : Type} (B : outParam (Bus → Bus → Prop)) (W : World R → World R → Prop) : Prop
    extends WorldRel B W where
  diff : ∀ w diff, W w { w with diff }
  isSkipRef : ∀ b, Within W (setSkipRef b)
  abort : ∀ w pc, W w { w with
    machine := { w.machine with
      nemuState := { w.machine.nemuState with state := .nemuAbort, haltPc := pc } } }

section World

variable {R : Type} {B : Bus → Bus → Prop} [BusReads B] {W : World R → World R → Prop} [WorldRel B W]

include B

omit [BusReads B] in
theorem onDebugger_within {α : Type} {x : OnDebugger α} (hx : Within (DebuggerBus B) x) :
    Within W (onDebugger x) := by
  intro w
  rw [final_onDebugger]
  exact WorldRel.debugger w _ (hx w.debugger)

omit [BusReads B] in
theorem onBus_within {α : Type} {x : OnBus α} (hx : Within B x) :
    Within W (onMachine (onBus x)) := by
  intro w
  rw [final_onMachine, final_onBus]
  exact WorldRel.bus w _ (hx w.machine.bus)

theorem onDevices_within (x : OnIO Unit) : Within W (onDevices x) := by
  refine onBus_within (B := B) fun bus => ?_
  cases x bus.io with
  | ok a io => exact BusReads.io bus io
  | error e io => exact BusReads.io bus io

theorem readWords_within (n : Nat) (address : Word) : Within W (readWords n address) := by
  induction n generalizing address with
  | zero => exact Within.pure _
  | succ n ih => exact (onBus_within (paddrRead_within address 4)).bind fun _ => ih _

theorem command_within (c : Command) : Within W c.run := by
  cases c with
  | cpuExec n => exact Within.pure _
  | p args =>
      refine Within.bind (R := W) ?_ fun _ => Within.pure _
      cases args with
      | none => exact Within.throw _
      | some e =>
          refine Within.get.bind fun w => ?_
          exact (onDebugger_within (callExpr_bus _ e 1)).bind fun _ => Within.pure _
  | x n address =>
      refine Within.ite (Within.pure _) ?_
      exact (readWords_within _ _).bind fun _ => Within.pure _
  | w args =>
      refine Within.get.bind fun w => ?_
      exact (onDebugger_within (newWp_bus _ args)).bind fun _ => Within.pure _
  | d num => exact (onDebugger_within (deleteWp_bus num)).bind fun _ => Within.pure _
  | other => exact Within.pure _
  | q => exact Within.pure _

theorem onCheck_within (cpu : CPUState) : Within W (onDebugger (Nemu.check cpu)) :=
  onDebugger_within (check_bus cpu)

end World

section Diff

variable {R : Type} {B : Bus → Bus → Prop} {W : World R → World R → Prop} [DiffRel B W]
  (E : Emulator R)

include B

theorem modifyDiff_within (f : DiffTest R → DiffTest R) : Within W (modifyDiff f) :=
  fun w => DiffRel.diff w _

theorem recordCall_within (c : RefCall) : Within W (recordCall c) := modifyDiff_within _

theorem refDifftestGetregs_within : Within W (refDifftestGetregs E) :=
  (recordCall_within _).bind fun _ => Within.get.bind fun _ => Within.pure _

theorem checkregs_within (ref : CPUState) (pc : Word) : Within W (checkregs E ref pc) := by
  refine (recordCall_within _).bind fun _ => Within.get.bind fun w => ?_
  exact Within.ite (Within.pure _) (Within.modify fun w => DiffRel.abort w pc)

theorem catchUp_within (nextPc : Word) : Within W (catchUp E nextPc) := by
  refine (refDifftestGetregs_within E).bind fun refR => Within.ite ?_ ?_
  · exact (checkregs_within E _ _).bind fun _ => modifyDiff_within _
  · refine (modifyDiff_within _).bind fun _ => Within.get.bind fun w => ?_
    exact cAssert_within _

theorem difftestStep_within (oriPc nextPc : Word) : Within W (difftestStep E oriPc nextPc) := by
  refine Within.get.bind fun w => Within.ite (Within.pure _) (Within.ite (catchUp_within E _) ?_)
  refine Within.ite ?_ ?_
  · refine Within.bind ((recordCall_within _).bind fun _ => modifyDiff_within _) fun _ => ?_
    exact DiffRel.isSkipRef false
  · refine Within.bind ((recordCall_within _).bind fun _ => modifyDiff_within _) fun _ => ?_
    exact (refDifftestGetregs_within E).bind fun refR => checkregs_within E _ _

end Diff

/-! ## Statements that set the state -/

section Statements

variable {R : Type} {W : World R → World R → Prop} [IsPreorder (World R) W]
  (E : Emulator R) (c : Command)

theorem entry_within (hstate : ∀ state, Within W (setState state)) (n : Nat) :
    Within W (Point.run E c (.entry n)) := by
  refine Within.get.bind fun w => ?_
  have hstart : Within W (do
      setState .nemuRunning
      return Point.loopTest n) :=
    (hstate _).bind fun _ => Within.pure _
  cases w.machine.nemuState.state with
  | nemuEnd => exact Within.pure _
  | nemuAbort => exact Within.pure _
  | nemuStop => exact hstart
  | nemuRunning => exact hstart

theorem finish_within (hstate : ∀ state, Within W (setState state)) :
    Within W (Point.run E c .finish) := by
  refine Within.get.bind fun w => ?_
  exact Within.ite ((hstate _).bind fun _ => Within.pure _) (Within.pure _)

theorem breakTest_within (n : Nat) : Within W (Point.run E c (.breakTest n)) :=
  Within.get.bind fun _ => Within.ite (Within.pure _) (Within.pure _)

end Statements

end Nemu
