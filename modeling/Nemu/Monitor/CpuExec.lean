import Mathlib.Logic.Relation
import Nemu.Monitor.DiffTest

/-!
# cpu_exec and the command loop

`cpu_exec` of `src/monitor/cpu-exec.c` and the commands of `src/monitor/debug/ui.c`, statement by
statement: a `Config` is the point that the program has reached together with all statics, and one
step carries out the statement that stands there.
-/

namespace Nemu

open StateRules

variable {R : Type}

/-! ## Points -/

/-- The statements of `cpu_exec`, with its locals, and the prompt of `ui_mainloop`. -/
inductive Point
  | prompt
  | entry (n : Nat)
  | loopTest (n : Nat)
  | execOnce (n : Nat)
  | difftest (n : Nat) (oriPc : Word)
  | asmPrint (n : Nat)
  | check (n : Nat)
  | count (n : Nat)
  | deviceUpdate (n : Nat)
  | breakTest (n : Nat)
  | finish
  | exited
  deriving DecidableEq, Repr

/-- What is typed at the prompt, with its arguments parsed.  `si N` is `cpuExec 1`, `N` times. -/
inductive Command
  | cpuExec (n : Nat)
  | p (args : Option (List Char))
  | x (n : Int) (address : Word)
  | w (args : Option (List Char))
  | d (num : Int)
  /-- `help`, `info`, and whatever is not a command -/
  | other
  | q

/-! ## Commands -/

def cmdP (args : Option (List Char)) : OnWorld R Unit := do
  match args with
  | none => throw .null
  | some e => do
      let cpu := (← get).machine.cpu
      let _ ← onDebugger (callExpr cpu e 1)

/-- The loop of `cmd_x_N`. -/
def readWords : Nat → Word → OnWorld R Unit
  | 0, _ => pure ()
  | n + 1, address => do
      let _ ← onMachine (onBus (paddrRead address 4))
      readWords n (address + 4)

def Command.run : Command → OnWorld R Point
  | .cpuExec n => return .entry n
  | .p args => do
      cmdP args
      return .prompt
  | .x n address => do
      -- a negative result ends the command loop
      if n ≤ 0 then return .exited
      readWords n.toNat address
      return .prompt
  | .w args => do
      let cpu := (← get).machine.cpu
      onDebugger (newWp cpu args)
      return .prompt
  | .d num => do
      onDebugger (deleteWp num)
      return .prompt
  | .other => return .prompt
  | .q => return .exited

/-! ## cpu_exec -/

def logMax : BitVec 64 := 1048576

section CpuExec

variable (E : Emulator R)

/-- The statement at a point, and the point behind it. -/
def Point.run (c : Command) : Point → OnWorld R Point
  | .prompt => c.run
  | .entry n => do
      match (← get).machine.nemuState.state with
      | .nemuEnd | .nemuAbort => return .prompt
      | .nemuStop | .nemuRunning => do
          setState .nemuRunning
          return .loopTest n
  | .loopTest n => return if 0 < n then .execOnce n else .finish
  | .execOnce n => do
      let oriPc := (← get).machine.cpu.pc
      let _ ← E.execOnce
      return .difftest n oriPc
  | .difftest n oriPc => do
      let nextPc := (← get).machine.cpu.pc
      if E.diffTest then difftestStep E oriPc nextPc else pure ()
      return .asmPrint n
  | .asmPrint n => do
      if (← get).gNrGuestInstr < logMax then onMachine Nemu.asmPrint else pure ()
      return .check n
  | .check n => do
      let cpu := (← get).machine.cpu
      if ← onDebugger (Nemu.check cpu) then setState .nemuStop else pure ()
      return .count n
  | .count n => do
      modify fun w => { w with gNrGuestInstr := w.gNrGuestInstr + 1 }
      return .deviceUpdate n
  | .deviceUpdate n => do
      onDevices E.deviceUpdate
      return .breakTest n
  | .breakTest n => do
      if (← get).machine.nemuState.state = .nemuRunning then return .loopTest (n - 1)
      return .finish
  | .finish => do
      if (← get).machine.nemuState.state = .nemuRunning then setState .nemuStop else pure ()
      return .prompt
  | .exited => return .exited

/-! ## Runs -/

structure Config (R : Type) where
  point : Point
  world : World R

/-- One statement; a fault ends the program. -/
def Config.next (c : Command) (a : Config R) : Config R :=
  match a.point.run E c a.world with
  | .ok point world => ⟨point, world⟩
  | .error _ world => ⟨.exited, world⟩

/-- One step of the program, under some command where one is read. -/
def Step (a b : Config R) : Prop := ∃ c, b = a.next E c

/-- Any number of steps. -/
abbrev Steps : Config R → Config R → Prop := Relation.ReflTransGen (Step E)

end CpuExec

/-! ## Control flow -/

theorem eq_of_bind_pure {α : Type} {x : OnWorld R α} {p q : Point} {w w' : World R}
    (h : (x >>= fun _ => pure p) w = .ok q w') : q = p := by
  rcases bind_eq_ok.1 h with ⟨_, _, _, hpure⟩
  cases hpure
  rfl

theorem command_point {c : Command} {q : Point} {w w' : World R} (h : c.run w = .ok q w') :
    (∃ n, q = .entry n) ∨ q = .prompt ∨ q = .exited := by
  cases c with
  | cpuExec n =>
      cases h
      exact .inl ⟨n, rfl⟩
  | p args => exact .inr (.inl (eq_of_bind_pure h))
  | x n address =>
      rw [Command.run] at h
      split at h
      · cases h
        exact .inr (.inr rfl)
      · exact .inr (.inl (eq_of_bind_pure h))
  | w args =>
      rcases bind_eq_ok.1 h with ⟨_, _, _, h'⟩
      exact .inr (.inl (eq_of_bind_pure h'))
  | d num => exact .inr (.inl (eq_of_bind_pure h))
  | other =>
      cases h
      exact .inr (.inl rfl)
  | q =>
      cases h
      exact .inr (.inr rfl)

/-- The points that can follow a point. -/
inductive Flow : Point → Point → Prop
  | stay : Flow .prompt .prompt
  | call (n : Nat) : Flow .prompt (.entry n)
  | refuse (n : Nat) : Flow (.entry n) .prompt
  | start (n : Nat) : Flow (.entry n) (.loopTest n)
  | execute (n : Nat) : Flow (.loopTest n) (.execOnce n)
  | leave (n : Nat) : Flow (.loopTest n) .finish
  | compare (n : Nat) (oriPc : Word) : Flow (.execOnce n) (.difftest n oriPc)
  | print (n : Nat) (oriPc : Word) : Flow (.difftest n oriPc) (.asmPrint n)
  | watch (n : Nat) : Flow (.asmPrint n) (.check n)
  | count (n : Nat) : Flow (.check n) (.count n)
  | update (n : Nat) : Flow (.count n) (.deviceUpdate n)
  | test (n : Nat) : Flow (.deviceUpdate n) (.breakTest n)
  | again (n : Nat) : Flow (.breakTest n) (.loopTest (n - 1))
  | stop (n : Nat) : Flow (.breakTest n) .finish
  | back : Flow .finish .prompt
  | exit (p : Point) : Flow p .exited

theorem point_flow {E : Emulator R} {c : Command} {p q : Point} {w w' : World R}
    (h : p.run E c w = .ok q w') : Flow p q := by
  cases p with
  -- the runs at each point, with the next point read off
  | prompt =>
      rcases command_point h with ⟨n, rfl⟩ | rfl | rfl
      · exact .call n
      · exact .stay
      · exact .exit _
  | entry n =>
      rw [Point.run, bind_ok (get_run w)] at h
      cases hstate : w.machine.nemuState.state <;> rw [hstate] at h <;> cases h
      · exact .start n
      · exact .start n
      · exact .refuse n
      · exact .refuse n
  | loopTest n =>
      cases h
      split
      · exact .execute n
      · exact .leave n
  | execOnce n =>
      rw [Point.run, bind_ok (get_run w)] at h
      rw [eq_of_bind_pure h]
      exact .compare n _
  | difftest n oriPc =>
      rw [Point.run, bind_ok (get_run w)] at h
      split at h
      · rw [eq_of_bind_pure h]
        exact .print n oriPc
      · cases h
        exact .print n oriPc
  | asmPrint n =>
      rw [Point.run, bind_ok (get_run w)] at h
      split at h
      · rw [eq_of_bind_pure h]
        exact .watch n
      · cases h
        exact .watch n
  | check n =>
      rw [Point.run, bind_ok (get_run w)] at h
      rcases bind_eq_ok.1 h with ⟨fired, w₁, _, h'⟩
      cases fired <;> cases h' <;> exact .count n
  | count n =>
      cases h
      exact .update n
  | deviceUpdate n =>
      rw [eq_of_bind_pure h]
      exact .test n
  | breakTest n =>
      rw [Point.run, bind_ok (get_run w)] at h
      split at h <;> cases h
      · exact .again n
      · exact .stop n
  | finish =>
      rw [Point.run, bind_ok (get_run w)] at h
      split at h <;> cases h <;> exact .back
  | exited =>
      cases h
      exact .exit _

theorem next_flow (E : Emulator R) (c : Command) (a : Config R) :
    Flow a.point (a.next E c).point := by
  unfold Config.next
  cases hrun : a.point.run E c a.world with
  | ok q w => exact point_flow hrun
  | error e w => exact .exit _

theorem next_world (E : Emulator R) (c : Command) (a : Config R) :
    (a.next E c).world = final (a.point.run E c a.world) := by
  unfold Config.next
  cases a.point.run E c a.world <;> rfl

/-! ## Single steps -/

section Single

variable {E : Emulator R}

theorem step_of_run {c : Command} {p q : Point} {w w' : World R} (h : p.run E c w = .ok q w') :
    Step E ⟨p, w⟩ ⟨q, w'⟩ := by
  refine ⟨c, ?_⟩
  simp only [Config.next, h]

/-- The statics behind the first statement of `cpu_exec`. -/
def World.running (w : World R) : World R := final (setState .nemuRunning w)

theorem step_command (n : Nat) (w : World R) : Step E ⟨.prompt, w⟩ ⟨.entry n, w⟩ :=
  step_of_run (c := .cpuExec n) rfl

theorem step_entry (n : Nat) {w : World R} (hstop : w.machine.nemuState.state = .nemuStop) :
    Step E ⟨.entry n, w⟩ ⟨.loopTest n, w.running⟩ := by
  refine step_of_run (c := .other) ?_
  rw [Point.run, bind_ok (get_run w), hstop]
  rfl

theorem step_loopTest {n : Nat} (hn : 0 < n) (w : World R) :
    Step E ⟨.loopTest n, w⟩ ⟨.execOnce n, w⟩ := by
  refine step_of_run (c := .other) ?_
  rw [Point.run, if_pos hn]
  rfl

/-- A stopped guest goes on at the next call. -/
theorem steps_call {n : Nat} (hn : 0 < n) {w : World R}
    (hstop : w.machine.nemuState.state = .nemuStop) :
    Steps E ⟨.prompt, w⟩ ⟨.execOnce n, w.running⟩ :=
  calc Steps E ⟨.prompt, w⟩ ⟨.entry n, w⟩ := .single (step_command n w)
    Steps E _ ⟨.loopTest n, w.running⟩ := .single (step_entry n hstop)
    Steps E _ ⟨.execOnce n, w.running⟩ := .single (step_loopTest hn _)

end Single

end Nemu
