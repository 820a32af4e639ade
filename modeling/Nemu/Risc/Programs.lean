import Nemu.Lib.Simulation
import Nemu.Risc.Invariant

/-!
# Programs on riscv32 and mips32

`cpu_exec` of `src/monitor/cpu-exec.c` as far as it is about the machine, for either of the two
instruction sets.  An architecture is described by what its instructions do to a processor and by
what ends a program; a guest program then runs in `cpu_exec` as it does on the processor.
-/

namespace Nemu
namespace Risc

open Simulation StateRules

/-! ## cpu_exec -/

/-- The lines that `cpu_exec` prints. -/
inductive CpuMessage
  | hasEnded
  | abort (pc : Word)
  | hitGoodTrap (pc : Word)
  | hitBadTrap (pc : Word)
  deriving DecidableEq, Repr

def NEMUState.message (state : NEMUState) : Option CpuMessage :=
  match state.state with
  | .nemuAbort => some (.abort state.haltPc)
  | .nemuEnd => some (if state.haltRet = 0 then .hitGoodTrap state.haltPc else .hitBadTrap state.haltPc)
  | _ => none

def setState (state : RunState) : Exec Unit :=
  modify fun s => { s with nemuState := { s.nemuState with state } }

def Machine.isRunning (s : Machine) : Bool := s.nemuState.state = .nemuRunning

/-- Without `DEBUG`, `DIFF_TEST` and `HAS_IOE`, as a reference design is built (`_SHARE`); the result
is the last line that is printed. -/
def cpuExec (isaExec : Exec Unit) (n : Nat) : Exec (Option CpuMessage) := do
  match (← get).nemuState.state with
  | .nemuEnd | .nemuAbort => return some .hasEnded
  | .nemuStop | .nemuRunning => do
      setState .nemuRunning
      iterate Machine.isRunning (execOnce isaExec) n
      if Machine.isRunning (← get) then setState .nemuStop else pure ()
      return NEMUState.message (← get).nemuState

/-! ## Architectures -/

/-- A processor of states `C`: its instructions, and what ends a program, with the run state of the
emulator behind it. -/
structure Architecture (C : Type) where
  instr : C → C → Prop
  ends : C → NEMUState → C → Prop

/-- The emulator implements the architecture. -/
structure Architecture.ImplementedBy {C : Type} (A : Architecture C) (view : Machine → C)
    (base : Word) (isaExec : Exec Unit) : Prop where
  keeps : Within Keeps isaExec
  view_nemuState : ∀ s state, view { s with nemuState := state } = view s
  instr : ∀ s c, s.Boundary base → A.instr (view s) c →
    ∃ npc s', execOnce isaExec s = .ok npc s' ∧ view s' = c ∧ s'.nemuState = s.nemuState
  ends : ∀ s state c, s.Boundary base → A.ends (view s) state c →
    ∃ npc s', execOnce isaExec s = .ok npc s' ∧ view s' = c ∧ s'.nemuState = state

section ImplementedBy

variable {C : Type} {A : Architecture C} {view : Machine → C} {base : Word} {isaExec : Exec Unit}

/-- Between the instructions of a `cpu_exec` that was called with the run state `state`. -/
structure Machine.Executing (base : Word) (state : NEMUState) (s : Machine) : Prop where
  boundary : s.Boundary base
  nemuState : s.nemuState = { state with state := .nemuRunning }

theorem Machine.Boundary.setState {s : Machine} (h : s.Boundary base) (state : NEMUState) :
    Machine.Boundary base { s with nemuState := state } := ⟨h.map, h.isJmp, h.zero⟩

theorem Machine.Boundary.of_execOnce (hkeeps : Within Keeps isaExec) {s s' : Machine} {npc : Word}
    (h : s.Boundary base) (hrun : Risc.execOnce isaExec s = .ok npc s') : s'.Boundary base := by
  have hfinal := h.execOnce hkeeps
  rwa [hrun] at hfinal

theorem isRunning_iff {s : Machine} : s.isRunning = true ↔ s.nemuState.state = .nemuRunning :=
  decide_eq_true_iff

theorem Architecture.ImplementedBy.simulates (hA : A.ImplementedBy view base isaExec)
    (state : NEMUState) :
    Simulates (Machine.Executing base state) view Machine.isRunning (execOnce isaExec) A.instr where
  call s c hs hinstr := by
    rcases hA.instr s c hs.boundary hinstr with ⟨npc, s', hrun, hview, hsame⟩
    have hstate := hsame.trans hs.nemuState
    refine ⟨npc, s', hrun, ⟨hs.boundary.of_execOnce hA.keeps hrun, hstate⟩, ?_, hview⟩
    rw [isRunning_iff, hstate]

/-- `cpu_exec` from its first test to its last. -/
theorem cpuExec_run {s s' : Machine} {n : Nat}
    (hstart : s.nemuState.state = .nemuStop ∨ s.nemuState.state = .nemuRunning)
    (hloop : iterate Machine.isRunning (execOnce isaExec) n
      { s with nemuState := { s.nemuState with state := .nemuRunning } } = .ok ⟨⟩ s') :
    cpuExec isaExec n s =
      if s'.isRunning then
        .ok none { s' with nemuState := { s'.nemuState with state := .nemuStop } }
      else .ok (NEMUState.message s'.nemuState) s' := by
  have hrest : cpuExec isaExec n s =
      (do
        if Machine.isRunning (← get) then setState .nemuStop else pure ()
        return NEMUState.message (← get).nemuState) s' := by
    rw [cpuExec, bind_ok (get_run s)]
    rcases hstart with hstop | hrunning
    · rw [hstop]
      exact (bind_ok (modify_run _ s)).trans (bind_ok hloop)
    · rw [hrunning]
      exact (bind_ok (modify_run _ s)).trans (bind_ok hloop)
  rw [hrest, bind_ok (get_run s')]
  by_cases hrunning : s'.isRunning = true
  · rw [if_pos hrunning, if_pos hrunning]
    rfl
  · rw [if_neg hrunning, if_neg hrunning]
    rfl

section Program

variable (hA : A.ImplementedBy view base isaExec) {s : Machine} (hs : s.Boundary base)
  (hstart : s.nemuState.state = .nemuStop ∨ s.nemuState.state = .nemuRunning) {k : Nat} {c : C}
  (hrun : Run A.instr k (view s) c)

include hA hs hstart hrun

/-- As many instructions as there are. -/
theorem cpuExec_instrs :
    ∃ s', cpuExec isaExec k s = .ok none s' ∧ view s' = c ∧ s'.Boundary base ∧
      s'.nemuState = { s.nemuState with state := .nemuStop } := by
  let s₀ : Machine := { s with nemuState := { s.nemuState with state := .nemuRunning } }
  have hs₀ : s₀.Executing base s.nemuState := ⟨hs.setState _, rfl⟩
  have hview₀ : view s₀ = view s := hA.view_nemuState s _
  rcases (hA.simulates s.nemuState).turns hrun hs₀ hview₀ with ⟨s', hs', hview', hiterate⟩
  have hloop : iterate Machine.isRunning (execOnce isaExec) k s₀ = .ok ⟨⟩ s' := hiterate 0
  have hrunning : s'.isRunning = true := by rw [isRunning_iff, hs'.nemuState]
  refine ⟨{ s' with nemuState := { s'.nemuState with state := .nemuStop } }, ?_,
    (hA.view_nemuState s' _).trans hview', hs'.boundary.setState _, ?_⟩
  · rw [cpuExec_run hstart hloop, if_pos hrunning]
  · exact congrArg (fun state : NEMUState => { state with state := .nemuStop }) hs'.nemuState

/-- The instruction that ends the program is the last one. -/
theorem cpuExec_ends {state : NEMUState} {c' : C} (hends : A.ends c state c')
    (hstate : state.state ≠ .nemuRunning) {n : Nat} (hn : k < n) :
    ∃ s', cpuExec isaExec n s = .ok (NEMUState.message state) s' ∧ view s' = c' ∧
      s'.nemuState = state := by
  let s₀ : Machine := { s with nemuState := { s.nemuState with state := .nemuRunning } }
  have hs₀ : s₀.Executing base s.nemuState := ⟨hs.setState _, rfl⟩
  have hrun₀ : Run A.instr k (view s₀) c := by rwa [hA.view_nemuState]
  have hlast : ∀ s', s'.Executing base s.nemuState → view s' = c →
      ∃ npc s'', execOnce isaExec s' = .ok npc s'' ∧ s''.isRunning = false ∧
        (view s'' = c' ∧ s''.nemuState = state) := by
    rintro s' hs' rfl
    rcases hA.ends s' state c' hs'.boundary hends with ⟨npc, s'', hx, hview, hstate'⟩
    refine ⟨npc, s'', hx, ?_, hview, hstate'⟩
    exact decide_eq_false (by rw [hstate']; exact hstate)
  rcases (hA.simulates s.nemuState).iterate_halts hrun₀ hs₀ hlast hn with ⟨s', hloop, hview, hstate'⟩
  have hstopped : s'.isRunning = false := decide_eq_false (by rw [hstate']; exact hstate)
  refine ⟨s', ?_, hview, hstate'⟩
  rw [cpuExec_run hstart hloop, hstopped, hstate']
  rfl

end Program

end ImplementedBy

end Risc
end Nemu
