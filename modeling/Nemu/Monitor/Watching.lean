import Nemu.Lib.Simulation
import Nemu.Monitor.SingleStep

/-!
# Programs under watchpoints

What watchpoints are for: `cpu_exec` runs a guest program until the first instruction behind which a
watched expression has another value, and stops there.  The last watchpoint of the list is never
looked at, and the values are those that the expressions have over what lies behind the flag.
-/

namespace Nemu

open Simulation StateRules

variable {R : Type}

/-! ## Programs -/

section Program

variable {B : BitVec 24 → Prop} {wp : WpState} {active free : List Nat}

/-- An instruction behind which no watched value in front of the last one is another. -/
def Unfired (B : BitVec 24 → Prop) (wp : WpState) (active : List Nat) (p p' : Processor) : Prop :=
  p.Instructs p' ∧ ∃ vs, p'.Shows B wp active.dropLast vs ∧ ¬ Changed wp active.dropLast vs

/-- An instruction behind which one is. -/
def Fires (B : BitVec 24 → Prop) (wp : WpState) (active : List Nat) (p p' : Processor) : Prop :=
  p.Instructs p' ∧ ∃ vs, p'.Shows B wp active.dropLast vs ∧ Changed wp active.dropLast vs

/-- The program ends, and no watched value is another. -/
def EndsQuietly (B : BitVec 24 → Prop) (wp : WpState) (active : List Nat) (p : Processor)
    (state : NEMUState) (p' : Processor) : Prop :=
  p.Ends state p' ∧ ∃ vs, p'.Shows B wp active.dropLast vs ∧ ¬ Changed wp active.dropLast vs

/-- A step while there is still an instruction to be recorded in the log; the number counts down. -/
def Recorded {τ : Type} (step : τ → τ → Prop) (a b : τ × Nat) : Prop :=
  step a.1 b.1 ∧ a.2 = b.2 + 1

theorem Recorded.run {τ : Type} {step : τ → τ → Prop} {k : Nat} {t t' : τ} (h : Run step k t t')
    (m : Nat) : Run (Recorded step) k (t, k + m) (t', m) := by
  induction h with
  | zero t =>
      rw [Nat.zero_add]
      exact .zero _
  | @succ k t t₁ t₂ hstep _ ih =>
      have hfirst : Recorded step (t, k + 1 + m) (t₁, k + m) := ⟨hstep, by omega⟩
      exact .succ hfirst ih

/-! ## The loop -/

def isRunning (w : World R) : Bool := w.machine.nemuState.state = .nemuRunning

theorem cpuLoop_eq_iterate (E : Emulator R) (n : Nat) :
    cpuLoop E n = iterate isRunning (loopBody E) n := by
  induction n with
  | zero => rfl
  | succ n ih =>
      rw [cpuLoop, iterate, ih]
      simp only [isRunning, decide_eq_true_eq]

/-- Between two instructions of a program that goes on. -/
structure World.Executing (B : BitVec 24 → Prop) (wp : WpState) (w : World R) : Prop where
  watching : w.Watching B wp
  printed : w.machine.Printed
  state : w.state = .nemuRunning

/-- The processor, and how many instructions can still be recorded. -/
def World.progress (w : World R) : Processor × Nat :=
  (w.machine.processor, logMax.toNat - w.gNrGuestInstr.toNat)

theorem progress_succ {count : BitVec 64} {m : Nat}
    (h : logMax.toNat - count.toNat = m + 1) :
    count < logMax ∧ logMax.toNat - (count + 1).toNat = m := by
  have hmax : logMax.toNat = 1048576 := rfl
  have hlt : count.toNat < logMax.toNat := by omega
  have hadd : (count + 1).toNat = count.toNat + 1 := by
    rw [BitVec.toNat_add, Nat.mod_eq_of_lt]
    · rfl
    · change count.toNat + 1 < 2 ^ 64
      omega
  refine ⟨BitVec.lt_def.2 hlt, ?_⟩
  omega

variable {ref : Ref R} {deviceUpdate : OnIO Unit}

theorem quiet_simulates (hdevice : DeviceReturns deviceUpdate) (hlists : wp.Lists active free)
    (hne : active ≠ []) :
    Simulates (World.Executing B wp) (World.progress (R := R)) isRunning
      (loopBody (.x86 false ref deviceUpdate)) (Recorded (Unfired B wp active)) where
  call w t hw hstep := by
    rcases t with ⟨p, m⟩
    obtain ⟨⟨hinstr, vs, hshows, hsame⟩, hroom⟩ := hstep
    rcases progress_succ hroom with ⟨hcount, hroom'⟩
    rcases hinstr.execOnce hw.watching.boundary hw.printed.trace with
      ⟨npc, s, hrun, rfl, hstate, -⟩
    rcases @turn_of_shows R B wp active free ref _ hdevice hlists hne w hw.watching hw.printed npc s
      hrun vs hshows with ⟨w', fired, hbody, hturn⟩
    have hno : fired = false := Bool.eq_false_iff.2 (mt hturn.fires.1 hsame)
    have hrunning : w'.machine.nemuState.state = .nemuRunning := by
      rw [hturn.nemuState, hno, hstate]
      exact hw.state
    refine ⟨_, w', hbody, ⟨hturn.watching, hturn.printed hcount, hrunning⟩, decide_eq_true hrunning,
      ?_⟩
    rw [World.progress, hturn.processor, hturn.count, hroom']

/-- `cpu_exec` behind its loop. -/
theorem cpuExec_of_loop {E : Emulator R} {n : Nat} {w w' : World R} (hlive : ¬ w.state.Terminal)
    (hloop : iterate isRunning (loopBody E) n w.running = .ok ⟨⟩ w') :
    cpuExec E n w = .ok ⟨⟩ (if w'.state = .nemuRunning then w'.stopped else w') := by
  rw [cpuExec_live n hlive, cpuLoop_eq_iterate, bind_ok hloop, leaveLoop_run]

theorem World.Watching.running {w : World R} (hw : w.Watching B wp) (hprinted : w.machine.Printed) :
    w.running.Executing B wp where
  watching := ⟨⟨hw.boundary.map, hw.boundary.isJmp, hw.boundary.isOperandSize16⟩, hw.wp, hw.behind⟩
  printed := ⟨hprinted.trace, hprinted.texts⟩
  state := rfl

/-- A turn behind which the guest has been stopped. -/
theorem fires_turn (hdevice : DeviceReturns deviceUpdate) (hlists : wp.Lists active free)
    (hne : active ≠ []) {w : World R} (hw : w.Executing B wp) {p' : Processor}
    (hfires : Fires B wp active w.machine.processor p') :
    ∃ u w', loopBody (.x86 false ref deviceUpdate) w = .ok u w' ∧ isRunning w' = false ∧
      w'.machine.processor = p' ∧ w'.state = .nemuStop ∧ w'.wp = wp := by
  obtain ⟨hinstr, vs, hshows, hchanged⟩ := hfires
  rcases hinstr.execOnce hw.watching.boundary hw.printed.trace with ⟨npc, s, hexec, rfl, -⟩
  rcases @turn_of_shows R B wp active free ref _ hdevice hlists hne w hw.watching hw.printed npc s
    hexec vs hshows with ⟨w', fired, hbody, hturn⟩
  have hstop : w'.machine.nemuState.state = .nemuStop := by
    rw [hturn.nemuState, hturn.fires.2 hchanged]
    rfl
  refine ⟨_, w', hbody, ?_, hturn.processor, hstop, hturn.watching.wp⟩
  exact decide_eq_false (by rw [hstop]; exact RunState.noConfusion)

/-- The last turn of a program. -/
theorem ends_turn (hdevice : DeviceReturns deviceUpdate) (hlists : wp.Lists active free)
    (hne : active ≠ []) {w : World R} (hw : w.Executing B wp) {state : NEMUState} {p' : Processor}
    (hends : EndsQuietly B wp active w.machine.processor state p') :
    ∃ u w', loopBody (.x86 false ref deviceUpdate) w = .ok u w' ∧ isRunning w' = false ∧
      w'.machine.processor = p' ∧ w'.machine.nemuState = state ∧ w'.wp = wp := by
  obtain ⟨hend, vs, hshows, hsame⟩ := hends
  have hended : state.state ≠ .nemuRunning := by
    cases hend <;> exact RunState.noConfusion
  rcases hend.execOnce hw.watching.boundary hw.printed with ⟨npc, s, hexec, rfl, rfl⟩
  rcases @turn_of_shows R B wp active free ref _ hdevice hlists hne w hw.watching hw.printed npc s
    hexec vs hshows with ⟨w', fired, hbody, hturn⟩
  have hno : fired = false := Bool.eq_false_iff.2 (mt hturn.fires.1 hsame)
  have hstate : w'.machine.nemuState = s.nemuState := by
    rw [hturn.nemuState, hno]
    rfl
  refine ⟨_, w', hbody, ?_, hturn.processor, hstate, hturn.watching.wp⟩
  exact decide_eq_false (by rw [hstate]; exact hended)

/-! ## cpu_exec -/

/-- What a run of `k` recorded instructions starts from. -/
structure World.Ready (B : BitVec 24 → Prop) (k : Nat) (w : World R) : Prop where
  watching : w.Watching B w.wp
  printed : w.machine.Printed
  room : w.gNrGuestInstr.toNat + k ≤ logMax.toNat
  live : ¬ w.state.Terminal

/-- The run as one of the loop. -/
theorem World.Ready.run {k : Nat} {w : World R} (hw : w.Ready B k) {p : Processor}
    (hrun : Run (Unfired B w.wp active) k w.machine.processor p) :
    ∃ m, Run (Recorded (Unfired B w.wp active)) k w.running.progress (p, m) := by
  obtain ⟨m, hm⟩ : ∃ m, logMax.toNat - w.gNrGuestInstr.toNat = k + m := by
    have hroom := hw.room
    exact ⟨logMax.toNat - w.gNrGuestInstr.toNat - k, by omega⟩
  refine ⟨m, ?_⟩
  change Run _ k (w.machine.processor, logMax.toNat - w.gNrGuestInstr.toNat) _
  rw [hm]
  exact Recorded.run hrun m

/-- A run without changes, and a turn that leaves the loop. -/
theorem cpuExec_leaves (hdevice : DeviceReturns deviceUpdate) {w : World R} {k : Nat}
    (hw : w.Ready B k) (hlists : w.wp.Lists active free) (hne : active ≠ []) {p : Processor}
    (hrun : Run (Unfired B w.wp active) k w.machine.processor p) {Q : World R → Prop}
    (hlast : ∀ w₁ : World R, w₁.Executing B w.wp → w₁.machine.processor = p →
      ∃ u w₂, loopBody (.x86 false ref deviceUpdate) w₁ = .ok u w₂ ∧ isRunning w₂ = false ∧ Q w₂)
    {n : Nat} (hn : k < n) :
    ∃ w', cpuExec (.x86 false ref deviceUpdate) n w = .ok ⟨⟩ w' ∧ Q w' := by
  have hsim := @quiet_simulates R B w.wp active free ref deviceUpdate hdevice hlists hne
  rcases hw.run hrun with ⟨m, hrun'⟩
  have hlast' : ∀ w₁ : World R, w₁.Executing B w.wp → w₁.progress = (p, m) →
      ∃ u w₂, loopBody (.x86 false ref deviceUpdate) w₁ = .ok u w₂ ∧ isRunning w₂ = false ∧
        (isRunning w₂ = false ∧ Q w₂) := by
    intro w₁ hw₁ hp
    rcases hlast w₁ hw₁ (congrArg Prod.fst hp) with ⟨u, w₂, hbody, hout, hQ⟩
    exact ⟨u, w₂, hbody, hout, hout, hQ⟩
  rcases hsim.iterate_halts hrun' (hw.watching.running hw.printed) hlast' hn with
    ⟨w', hloop, hout, hQ⟩
  refine ⟨w', ?_, hQ⟩
  have hstopped : w'.state ≠ .nemuRunning := of_decide_eq_false hout
  rw [cpuExec_of_loop hw.live hloop, if_neg hstopped]

/-- A program that runs for `k` instructions without a change: `cpu_exec` runs as many of them as it
is asked for, and stops behind the first one with a change or ends with the program. -/
theorem cpuExec_watches (ref : Ref R) (hdevice : DeviceReturns deviceUpdate) {w : World R} {k : Nat}
    (hw : w.Ready B k) (hlists : w.wp.Lists active free) (hne : active ≠ []) {p : Processor}
    (hrun : Run (Unfired B w.wp active) k w.machine.processor p) :
    (∃ w', cpuExec (.x86 false ref deviceUpdate) k w = .ok ⟨⟩ w' ∧ w'.machine.processor = p ∧
      w'.state = .nemuStop ∧ w'.wp = w.wp) ∧
    (∀ n p', k < n → Fires B w.wp active p p' →
      ∃ w', cpuExec (.x86 false ref deviceUpdate) n w = .ok ⟨⟩ w' ∧ w'.machine.processor = p' ∧
        w'.state = .nemuStop ∧ w'.wp = w.wp) ∧
    (∀ n state p', k < n → EndsQuietly B w.wp active p state p' →
      ∃ w', cpuExec (.x86 false ref deviceUpdate) n w = .ok ⟨⟩ w' ∧ w'.machine.processor = p' ∧
        w'.machine.nemuState = state ∧ w'.wp = w.wp) := by
  refine ⟨?_, fun n p' hn hfires => ?_, fun n state p' hn hends => ?_⟩
  · have hsim := @quiet_simulates R B w.wp active free ref deviceUpdate hdevice hlists hne
    rcases hw.run hrun with ⟨m, hrun'⟩
    rcases hsim.turns hrun' (hw.watching.running hw.printed) rfl with ⟨w', hw', hp, hiterate⟩
    have hexec := cpuExec_of_loop (n := k) hw.live (hiterate 0)
    rw [if_pos hw'.state] at hexec
    exact ⟨w'.stopped, hexec, congrArg Prod.fst hp, rfl, hw'.watching.wp⟩
  · refine cpuExec_leaves hdevice hw hlists hne hrun (fun w₁ hw₁ hp => ?_) hn
    exact fires_turn hdevice hlists hne hw₁ (hp ▸ hfires)
  · refine cpuExec_leaves hdevice hw hlists hne hrun (fun w₁ hw₁ hp => ?_) hn
    exact ends_turn hdevice hlists hne hw₁ (hp ▸ hends)

end Program

/-- The two stores beside the watched word are quiet, and the program is stopped behind the one that
changes it. -/
theorem cpuExec_watches_word :
    ∃ w', cpuExec plainX86 100 startWorld = .ok ⟨⟩ w' ∧ w'.state = .nemuStop ∧
      w'.machine.cpu.pc = 0x10001e := by
  rcases startWorld_stores with ⟨p₁, p₂, p₃, h₁, h₂, h₃, hword₁, hword₂, hword₃, hpc⟩
  let B : BitVec 24 → Prop := fun _ => True
  have hquiet : ∀ {p p' : Processor}, p.Instructs p' → p'.word = 0 →
      Unfired B watchWord [0, 1] p p' := fun hinstr hword =>
    ⟨hinstr, _, Processor.shows_word _ B, fun h => changed_word_iff.1 h hword⟩
  have hfires : Fires B watchWord [0, 1] p₂ p₃ := by
    refine ⟨h₃, _, Processor.shows_word _ B, changed_word_iff.2 ?_⟩
    rw [hword₃]
    decide
  have hready : startWorld.Ready B 2 :=
    { watching := ⟨⟨rfl, rfl, rfl⟩, rfl, fun _ => trivial⟩
      printed := ⟨⟨rfl, rfl, rfl⟩, fun _ => Nat.zero_le _⟩
      room := by decide
      live := not_terminal_stop }
  have hprogram := @cpuExec_watches Unit B [0, 1] _ (pure ()) .idle (fun io => ⟨io, rfl⟩) startWorld
    2 hready watchWord_lists (by decide) p₂ (.succ (hquiet h₁ hword₁) (.succ (hquiet h₂ hword₂)
      (.zero _)))
  rcases hprogram.2.1 100 p₃ (by decide) hfires with ⟨w', hexec, hp, hstop, -⟩
  refine ⟨w', hexec, hstop, ?_⟩
  have hpc' := congrArg (fun p : Processor => p.cpu.pc) hp
  exact hpc'.trans hpc

end Nemu
