import Nemu.Monitor.Watchpoint
import Nemu.X86.Exec

/-!
# The statics of the emulator

Everything that `cpu_exec`, `difftest_step` and the debugger commands read and write.  The
reference design is a shared library that is loaded at run time; it stays a parameter.
-/

namespace Nemu

open StateRules

/-! ## The reference design -/

/-- The functions that `init_difftest` looks up in the library, on its state.  `exec` is
`ref_difftest_exec(1)`. -/
structure Ref (R : Type) where
  getregs : R → CPUState
  setregs : CPUState → R → R
  exec : R → R

/-- A reference design that does nothing. -/
def Ref.idle : Ref Unit :=
  { getregs := fun _ => .zero, setregs := fun _ _ => (), exec := fun _ => () }

/-- The calls that `diff-test.c` makes, in order. -/
inductive RefCall
  | getregs
  | setregs
  | exec
  | checkregs (pc : Word)
  deriving DecidableEq, Repr

/-- The statics of `diff-test.c` apart from `is_skip_ref`, the state of the reference design, and
the calls made so far. -/
structure DiffTest (R : Type) where
  skipDutNrInstr : Int
  isDetach : Bool
  ref : R
  calls : List RefCall

/-! ## All statics -/

/-- The statics, and the bytes `behind` the flags that the debugger passes to `expr`. -/
structure World (R : Type) where
  machine : Machine
  wp : WpState
  buf : TokenBuf
  evalMessages : List EvalMessage
  messages : List WpMessage
  behind : Nat → BitVec 24
  diff : DiffTest R
  gNrGuestInstr : BitVec 64

/-- The statics at the start of the program. -/
def World.zero {R : Type} (ref : R) : World R :=
  { machine := .zero, wp := .zero, buf := .zero, evalMessages := [], messages := [],
    behind := fun _ => 0, diff := ⟨0, false, ref, []⟩, gNrGuestInstr := 0 }

abbrev OnWorld (R : Type) := EStateM Fault (World R)

section Lifts

variable {R α : Type}

def onMachine (x : Exec α) : OnWorld R α := fun w =>
  match x w.machine with
  | .ok a machine => .ok a { w with machine }
  | .error e machine => .error e { w with machine }

theorem final_onMachine (x : Exec α) (w : World R) :
    final (onMachine x w) = { w with machine := final (x w.machine) } := by
  unfold onMachine
  cases x w.machine <;> rfl

def World.debugger (w : World R) : Debugger :=
  { wp := w.wp, buf := w.buf, bus := w.machine.bus, evalMessages := w.evalMessages,
    messages := w.messages, behind := w.behind }

def World.withDebugger (w : World R) (d : Debugger) : World R :=
  { w with
    machine := { w.machine with bus := d.bus }, wp := d.wp, buf := d.buf,
    evalMessages := d.evalMessages, messages := d.messages, behind := d.behind }

/-- The devices change nothing but their own state. -/
def onDevices (x : OnIO α) : OnWorld R α :=
  onMachine <| onBus fun bus =>
    match x bus.io with
    | .ok a io => .ok a { bus with io }
    | .error e io => .error e { bus with io }

theorem final_onDevices (x : OnIO α) (w : World R) :
    final (onDevices x w) =
      { w with machine := { w.machine with
        bus := { w.machine.bus with io := final (x w.machine.bus.io) } } } := by
  unfold onDevices onMachine onBus
  cases hrun : x w.machine.bus.io <;> simp only [hrun] <;> rfl

/-- The debugger works on its own statics and on guest memory. -/
def onDebugger (x : OnDebugger α) : OnWorld R α := fun w =>
  match x w.debugger with
  | .ok a d => .ok a (w.withDebugger d)
  | .error e d => .error e (w.withDebugger d)

theorem final_onDebugger (x : OnDebugger α) (w : World R) :
    final (onDebugger x w) = w.withDebugger (final (x w.debugger)) := by
  unfold onDebugger
  cases x w.debugger <;> rfl

theorem onDebugger_of_ok {x : OnDebugger α} {w : World R} {a : α} {d : Debugger}
    (h : x w.debugger = .ok a d) : onDebugger x w = .ok a (w.withDebugger d) := by
  simp only [onDebugger, h]

theorem onDebugger_of_error {x : OnDebugger α} {w : World R} {e : Fault} {d : Debugger}
    (h : x w.debugger = .error e d) : onDebugger x w = .error e (w.withDebugger d) := by
  simp only [onDebugger, h]

/-- The two halves of a debugger function, one after the other. -/
theorem onDebugger_bind {β : Type} (x : OnDebugger α) (f : α → OnDebugger β) :
    (onDebugger (x >>= f) : OnWorld R β) = onDebugger x >>= fun a => onDebugger (f a) := by
  funext w
  cases hx : x w.debugger with
  | ok a d =>
      rw [bind_ok (onDebugger_of_ok hx)]
      simp only [onDebugger]
      rw [bind_ok hx]
      rfl
  | error e d =>
      rw [bind_error (onDebugger_of_error hx)]
      exact onDebugger_of_error (bind_error hx)

def modifyMachine (f : Machine → Machine) : OnWorld R Unit :=
  modify fun w => { w with machine := f w.machine }

def modifyDiff (f : DiffTest R → DiffTest R) : OnWorld R Unit :=
  modify fun w => { w with diff := f w.diff }

def setState (state : RunState) : OnWorld R Unit :=
  modifyMachine fun s => { s with nemuState := { s.nemuState with state } }

end Lifts

/-! ## The emulator -/

/-- What is fixed when the emulator is built and started: whether `DIFF_TEST` is defined, the
reference design, what the instruction set supplies, and `device_update`, which does nothing
unless `HAS_IOE` is defined. -/
structure Emulator (R : Type) where
  diffTest : Bool
  ref : Ref R
  isaDifftestCheckregs : CPUState → CPUState → Word → Bool
  execOnce : OnWorld R Word
  deviceUpdate : OnIO Unit

/-- The x86 emulator.  Its `isa_difftest_checkregs` is a stub. -/
def Emulator.x86 {R : Type} (diffTest : Bool) (ref : Ref R) (deviceUpdate : OnIO Unit) :
    Emulator R :=
  { diffTest, ref, isaDifftestCheckregs := fun _ _ _ => false,
    execOnce := onMachine Nemu.execOnce, deviceUpdate }

end Nemu
