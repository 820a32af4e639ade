import Nemu.Monitor.Terminal

/-!
# cpu_exec as a function

The statements of `cpu_exec` put together again: one turn of its loop, the loop, and the whole
function.  Every run of it is a run of the statements, from its first one back to the prompt.
-/

namespace Nemu

open StateRules

variable {R : Type}

section Functions

variable (E : Emulator R)

/-! ## One turn of the loop -/

/-- What `DIFF_TEST` adds. -/
def compareStep (oriPc : Word) : OnWorld R Unit := do
  let nextPc := (← get).machine.cpu.pc
  if E.diffTest then difftestStep E oriPc nextPc else pure ()

def printStep : OnWorld R Unit := do
  if (← get).gNrGuestInstr < logMax then onMachine Nemu.asmPrint else pure ()

def runCheck : OnWorld R Bool := do
  let cpu := (← get).machine.cpu
  onDebugger (Nemu.check cpu)

/-- `if (check()) nemu_state.state = NEMU_STOP;` -/
def watchStep : OnWorld R Unit := do
  if ← runCheck then setState .nemuStop else pure ()

/-- The statements in front of the watchpoint check. -/
def executeStep : OnWorld R Unit := do
  let oriPc := (← get).machine.cpu.pc
  let _ ← E.execOnce
  compareStep E oriPc
  printStep

/-- The body of the loop, up to the `break`. -/
def loopBody : OnWorld R Unit := do
  executeStep E
  watchStep
  modify fun w => { w with gNrGuestInstr := w.gNrGuestInstr + 1 }
  onDevices E.deviceUpdate

/-! ## The loop and the function -/

def cpuLoop : Nat → OnWorld R Unit
  | 0 => pure ()
  | n + 1 => do
      loopBody E
      if (← get).machine.nemuState.state = .nemuRunning then cpuLoop n else pure ()

/-- The `switch` behind the loop. -/
def leaveLoop : OnWorld R Unit := do
  if (← get).machine.nemuState.state = .nemuRunning then setState .nemuStop else pure ()

def cpuExec (n : Nat) : OnWorld R Unit := do
  match (← get).machine.nemuState.state with
  | .nemuEnd | .nemuAbort => pure ()
  | .nemuStop | .nemuRunning => do
      setState .nemuRunning
      cpuLoop E n
      leaveLoop

/-- The loop of `cmd_si`. -/
def siLoop : Nat → OnWorld R Unit
  | 0 => pure ()
  | n + 1 => do
      cpuExec E 1
      siLoop n

/-- `cmd_si`, with the value of `atoi` for its argument, or none. -/
def cmdSi (arg : Option Int) : OnWorld R Unit :=
  let i := arg.getD 1
  siLoop E (if i = 0 then 1 else i).toNat

end Functions

/-- The statics behind a stop. -/
def World.stopped (w : World R) : World R := final (setState .nemuStop w)

/-! ## Runs of the statements -/

section Covers

variable {E : Emulator R} {α β : Type} {p q r : Point} {w : World R}

/-- A run of `x` from `w` is a run of the program from `p` to `q`; a fault ends the program. -/
structure Covers (E : Emulator R) (p : Point) (x : OnWorld R α) (q : Point) (w : World R) :
    Prop where
  ok : ∀ a w', x w = .ok a w' → Steps E ⟨p, w⟩ ⟨q, w'⟩
  error : ∀ e w', x w = .error e w' → Steps E ⟨p, w⟩ ⟨.exited, w'⟩

theorem Covers.of_run {x : OnWorld R α}
    (h : p.run E .other w = (x >>= fun _ => pure q) w) : Covers E p x q w where
  ok a w' hx := by
    rw [bind_ok hx] at h
    exact .single (step_of_run h)
  error e w' hx := by
    rw [bind_error hx] at h
    refine .single ⟨.other, ?_⟩
    simp only [Config.next, h]

theorem Covers.bind {x : OnWorld R α} {f : α → OnWorld R β} (hx : Covers E p x q w)
    (hf : ∀ a w', x w = .ok a w' → Covers E q (f a) r w') : Covers E p (x >>= f) r w where
  ok b w'' h := by
    rcases bind_eq_ok.1 h with ⟨a, w', hrun, hrest⟩
    exact (hx.ok a w' hrun).trans ((hf a w' hrun).ok b w'' hrest)
  error e w'' h := by
    cases hrun : x w with
    | ok a w' =>
        rw [bind_ok hrun] at h
        exact (hx.ok a w' hrun).trans ((hf a w' hrun).error e w'' h)
    | error e' w' =>
        rw [bind_error hrun] at h
        cases h
        exact hx.error e _ hrun

/-- The same run under another name. -/
theorem Covers.congr {x y : OnWorld R α} (hy : Covers E p y q w) (h : x w = y w) :
    Covers E p x q w where
  ok a w' hx := hy.ok a w' (h.symm.trans hx)
  error e w' hx := hy.error e w' (h.symm.trans hx)

/-! ## Statement by statement -/

theorem compareStep_covers (n : Nat) (oriPc : Word) (w : World R) :
    Covers E (.difftest n oriPc) (compareStep E oriPc) (.asmPrint n) w := by
  refine .congr (y := if E.diffTest then difftestStep E oriPc w.machine.cpu.pc else pure ()) ?_ rfl
  refine .of_run ?_
  rw [Point.run, bind_ok (get_run w)]
  split
  · rfl
  · rfl

theorem printStep_covers (n : Nat) (w : World R) :
    Covers E (.asmPrint n) printStep (.check n) w := by
  refine .congr (y := if w.gNrGuestInstr < logMax then onMachine Nemu.asmPrint else pure ()) ?_ rfl
  refine .of_run ?_
  rw [Point.run, bind_ok (get_run w)]
  split
  · rfl
  · rfl

theorem watchStep_run {fired : Bool} {w' : World R}
    (h : onDebugger (Nemu.check w.machine.cpu) w = .ok fired w') :
    watchStep w = (if fired then setState .nemuStop else pure ()) w' := by
  have hcheck : runCheck w = .ok fired w' := by
    rw [runCheck, bind_ok (get_run w)]
    exact h
  rw [watchStep, bind_ok hcheck]

theorem watchStep_covers (n : Nat) (w : World R) :
    Covers E (.check n) watchStep (.count n) w := by
  refine .of_run ?_
  rw [Point.run, bind_ok (get_run w)]
  cases hrun : onDebugger (Nemu.check w.machine.cpu) w with
  | error e w' =>
      have hcheck : runCheck w = .error e w' := by
        rw [runCheck, bind_ok (get_run w)]
        exact hrun
      have hwatch : watchStep w = .error e w' := by
        rw [watchStep, bind_error hcheck]
      rw [bind_error hrun, bind_error hwatch]
  | ok fired w' =>
      rw [bind_ok hrun, bind_run_congr (watchStep_run hrun)]
      cases fired with
      | true => rfl
      | false => rfl

theorem executeStep_covers (n : Nat) (w : World R) :
    Covers E (.execOnce n) (executeStep E) (.check n) w := by
  have hexec : Covers E (.execOnce n) E.execOnce (.difftest n w.machine.cpu.pc) w :=
    .of_run (by rw [Point.run, bind_ok (get_run w)])
  refine .congr (hexec.bind fun _ w₁ _ => ?_) (bind_ok (get_run w))
  exact (compareStep_covers n _ w₁).bind fun _ w₂ _ => printStep_covers n w₂

theorem loopBody_covers (n : Nat) (w : World R) :
    Covers E (.execOnce n) (loopBody E) (.breakTest n) w := by
  refine (executeStep_covers n w).bind fun _ w₁ _ => ?_
  refine (watchStep_covers n w₁).bind fun _ w₂ _ => ?_
  refine Covers.bind (q := .deviceUpdate n) (.of_run rfl) fun _ w₃ _ => ?_
  exact .of_run rfl

/-! ## The whole function -/

theorem cpuLoop_covers (n : Nat) (w : World R) :
    Covers E (.loopTest n) (cpuLoop E n) .finish w := by
  induction n generalizing w with
  | zero => exact .of_run rfl
  | succ n ih =>
      have htest : Covers E (.loopTest (n + 1)) (pure ()) (.execOnce (n + 1)) w := .of_run rfl
      refine .congr (htest.bind (f := fun _ => cpuLoop E (n + 1)) fun _ w₁ _ => ?_) rfl
      refine (loopBody_covers (n + 1) w₁).bind fun _ w₂ _ => ?_
      by_cases hstate : w₂.machine.nemuState.state = .nemuRunning
      · have hagain : Covers E (.breakTest (n + 1)) (pure ()) (.loopTest n) w₂ := by
          refine .of_run ?_
          rw [Point.run, bind_ok (get_run w₂), if_pos hstate]
          rfl
        refine .congr (hagain.bind fun _ w₃ _ => ih w₃) ?_
        rw [bind_ok (get_run w₂), if_pos hstate]
        rfl
      · refine .congr (y := pure ()) (.of_run ?_) ?_
        · rw [Point.run, bind_ok (get_run w₂), if_neg hstate]
          rfl
        · rw [bind_ok (get_run w₂), if_neg hstate]

theorem leaveLoop_covers (w : World R) : Covers E .finish leaveLoop .prompt w := by
  refine .of_run ?_
  have hleave : leaveLoop w =
      (if w.machine.nemuState.state = .nemuRunning then setState .nemuStop else pure ()) w := by
    rw [leaveLoop, bind_ok (get_run w)]
  rw [Point.run, bind_ok (get_run w), bind_run_congr hleave]
  split
  · rfl
  · rfl

theorem cpuExec_ended (n : Nat) (h : w.state.Terminal) : cpuExec E n w = .ok ⟨⟩ w := by
  rw [cpuExec, bind_ok (get_run w)]
  rcases h with h | h
  · rw [show w.machine.nemuState.state = .nemuEnd from h]
    rfl
  · rw [show w.machine.nemuState.state = .nemuAbort from h]
    rfl

theorem cpuExec_live (n : Nat) (h : ¬ w.state.Terminal) :
    cpuExec E n w = (cpuLoop E n >>= fun _ => leaveLoop) w.running := by
  rw [cpuExec, bind_ok (get_run w)]
  cases hstate : w.machine.nemuState.state with
  | nemuStop => rfl
  | nemuRunning => rfl
  | nemuEnd => exact absurd (.inl hstate) h
  | nemuAbort => exact absurd (.inr hstate) h

/-- `cpu_exec` is what the statements do from its first one to the prompt. -/
theorem cpuExec_covers (n : Nat) (w : World R) :
    Covers E (.entry n) (cpuExec E n) .prompt w := by
  by_cases h : w.state.Terminal
  · have hrefuse : Covers E (.entry n) (pure ()) .prompt w := .of_run (entry_run E .other n h)
    exact .congr hrefuse (cpuExec_ended n h)
  · have hstart : Covers E (.entry n) (setState .nemuRunning) (.loopTest n) w := by
      refine .of_run ?_
      rw [Point.run, bind_ok (get_run w)]
      cases hstate : w.machine.nemuState.state with
      | nemuStop => rfl
      | nemuRunning => rfl
      | nemuEnd => exact absurd (.inl hstate) h
      | nemuAbort => exact absurd (.inr hstate) h
    have hrun : cpuExec E n w = (setState .nemuRunning >>= fun _ => cpuLoop E n >>= fun _ =>
        leaveLoop) w := cpuExec_live n h
    refine .congr (hstart.bind fun _ w₁ _ => ?_) hrun
    exact (cpuLoop_covers n w₁).bind fun _ w₂ _ => leaveLoop_covers w₂

theorem siLoop_covers (n : Nat) (w : World R) : Covers E .prompt (siLoop E n) .prompt w := by
  induction n generalizing w with
  | zero =>
      exact ⟨fun _ _ h => by cases h; exact .refl, fun _ _ h => by cases h⟩
  | succ n ih =>
      have hcall : Covers E .prompt (cpuExec E 1) .prompt w :=
        ⟨fun a w' h => .head (step_command 1 w) ((cpuExec_covers 1 w).ok a w' h),
          fun e w' h => .head (step_command 1 w) ((cpuExec_covers 1 w).error e w' h)⟩
      exact hcall.bind fun _ w₁ _ => ih w₁

end Covers

end Nemu
