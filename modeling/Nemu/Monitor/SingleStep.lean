import Nemu.Monitor.Turn

/-!
# si N and cpu_exec(N)

Every call of `cpu_exec` sets the state to `NEMU_RUNNING` at its entry, unless the program has
ended.  The end of the program therefore survives into the next call of `cmd_si`, and the stop of a
watchpoint does not.
-/

namespace Nemu

open StateRules

variable {R : Type}

/-! ## What stops the guest -/

/-- The guest is not stopped, and no instruction is counted. -/
structure Unstopped (w w' : World R) : Prop where
  state : w.state ≠ .nemuStop → w'.state ≠ .nemuStop
  count : w'.gNrGuestInstr = w.gNrGuestInstr

theorem Unstopped.of_eq {w w' : World R} (hstate : w'.machine.nemuState = w.machine.nemuState)
    (hcount : w'.gNrGuestInstr = w.gNrGuestInstr) : Unstopped w w' := by
  refine ⟨fun h => ?_, hcount⟩
  unfold World.state at h ⊢
  rwa [hstate]

instance : IsPreorder (World R) Unstopped where
  refl _ := ⟨fun h => h, rfl⟩
  trans _ _ _ h h' := ⟨h'.state ∘ h.state, h'.count.trans h.count⟩

instance : DiffRel AnyBus (@Unstopped R) where
  debugger _ _ _ := .of_eq rfl rfl
  bus _ _ _ := .of_eq rfl rfl
  diff _ _ := .of_eq rfl rfl
  isSkipRef _ := fun _ => .of_eq rfl rfl
  abort _ _ := ⟨fun _ h => RunState.noConfusion h, rfl⟩

/-- What the debugger and the devices keep. -/
structure SameState (w w' : World R) : Prop where
  state : w'.state = w.state
  count : w'.gNrGuestInstr = w.gNrGuestInstr

instance : IsPreorder (World R) SameState where
  refl _ := ⟨rfl, rfl⟩
  trans _ _ _ h h' := ⟨h'.state.trans h.state, h'.count.trans h.count⟩

instance : WorldRel AnyBus (@SameState R) where
  debugger _ _ _ := ⟨rfl, rfl⟩
  bus _ _ _ := ⟨rfl, rfl⟩

/-- Instructions end or abort the program, but they do not stop the guest. -/
def Emulator.Unstopping (E : Emulator R) : Prop := Within Unstopped E.execOnce

def UnstoppedMachine (s s' : Machine) : Prop :=
  s.nemuState.state ≠ .nemuStop → s'.nemuState.state ≠ .nemuStop

theorem execOnce_unstopped : Within UnstoppedMachine execOnce :=
  fun s => (execOnce_keepsOnce (B := AnyBus) s).state

theorem x86_unstopping (diffTest : Bool) (ref : Ref R) (deviceUpdate : OnIO Unit) :
    (Emulator.x86 diffTest ref deviceUpdate).Unstopping := by
  intro w
  change Unstopped w (final (onMachine execOnce w))
  rw [final_onMachine]
  exact ⟨execOnce_unstopped w.machine, rfl⟩

section Turns

variable {E : Emulator R} {w w₁ w₂ : World R}

/-! ## One turn -/

/-- Behind the next instruction, a watched value in front of the last one is not the stored one. -/
def WatchFires (E : Emulator R) (w : World R) : Prop :=
  ∃ w₁, executeStep E w = .ok ⟨⟩ w₁ ∧ w₁.debugger.ShowsChange w₁.machine.cpu

theorem executeStep_unstopped (hE : E.Unstopping) : Within Unstopped (executeStep E) := by
  refine Within.get.bind fun w => Within.bind hE fun _ => Within.bind (R := Unstopped) ?_ fun _ => ?_
  · exact Within.get.bind fun w => Within.ite (difftestStep_within E _ _) (Within.pure _)
  · have hprint : Within (@Unstopped R) (onMachine Nemu.asmPrint) := fun _ => .of_eq rfl rfl
    exact Within.get.bind fun w => Within.ite hprint (Within.pure _)

theorem runCheck_sameState : Within (@SameState R) runCheck :=
  Within.get.bind fun w => onCheck_within w.machine.cpu

theorem runCheck_true_iff :
    (∃ w', runCheck w = .ok true w') ↔ w.debugger.ShowsChange w.machine.cpu := by
  have hrun : runCheck w = onDebugger (Nemu.check w.machine.cpu) w := bind_ok (get_run w)
  rw [hrun]
  exact onCheck_true_iff

/-- A turn that ends counts one instruction, and stops the guest exactly when a watched value has
changed. -/
theorem loopBody_ok (hE : E.Unstopping) (h : loopBody E w = .ok ⟨⟩ w₁) :
    w₁.gNrGuestInstr = w.gNrGuestInstr + 1 ∧
      (w.state ≠ .nemuStop → (w₁.state = .nemuStop ↔ WatchFires E w)) := by
  rcases bind_eq_ok.1 h with ⟨⟨⟩, s₁, hexec, h₁⟩
  rcases bind_eq_ok.1 h₁ with ⟨⟨⟩, s₃, hwatch, h₂⟩
  rcases bind_eq_ok.1 hwatch with ⟨fired, s₂, hcheck, hset⟩
  rcases bind_eq_ok.1 h₂ with ⟨⟨⟩, s₄, hcount, hdevice⟩
  -- what each part of the turn does to the state and the count
  have hexecuted := (executeStep_unstopped hE).ok hexec
  have hchecked := runCheck_sameState.ok hcheck
  have hdevices := (onDevices_within (W := SameState) E.deviceUpdate).ok hdevice
  have hstate₄ : s₄.state = s₃.state ∧ s₄.gNrGuestInstr = s₃.gNrGuestInstr + 1 := by
    cases hcount
    exact ⟨rfl, rfl⟩
  have hset₃ : s₃.gNrGuestInstr = s₂.gNrGuestInstr ∧
      s₃.state = if fired then .nemuStop else s₂.state := by
    cases fired <;> cases hset <;> exact ⟨rfl, rfl⟩
  refine ⟨?_, fun hw => ?_⟩
  · rw [hdevices.count, hstate₄.2, hset₃.1, hchecked.count, hexecuted.count]
  · rw [hdevices.state, hstate₄.1, hset₃.2]
    cases fired with
    | true => exact ⟨fun _ => ⟨s₁, hexec, runCheck_true_iff.1 ⟨s₂, hcheck⟩⟩, fun _ => rfl⟩
    -- without a report no part of the turn stops the guest
    | false =>
        constructor
        · intro hstop
          exact absurd (hchecked.state.symm.trans hstop) (hexecuted.state hw)
        · rintro ⟨s₁', hexec', hchange⟩
          cases hexec.symm.trans hexec'
          rcases runCheck_true_iff.2 hchange with ⟨s₂', hcheck'⟩
          cases hcheck.symm.trans hcheck'

/-- The turns that leave the guest running. -/
inductive Runs (E : Emulator R) : Nat → World R → World R → Prop
  | zero (w : World R) : Runs E 0 w w
  | succ {k : Nat} {w w₁ w₂ : World R} (hturn : loopBody E w = .ok ⟨⟩ w₁)
      (hstate : w₁.state = .nemuRunning) (hrest : Runs E k w₁ w₂) : Runs E (k + 1) w w₂

/-! ## One turn of cpu_exec -/

theorem stopped_running (h : w.state = .nemuRunning) : w.stopped.running = w := by
  change { w with machine := { w.machine with
    nemuState := { w.machine.nemuState with state := .nemuRunning } } } = w
  rw [← show w.machine.nemuState.state = .nemuRunning from h]

theorem not_terminal_stopped (w : World R) : ¬ w.stopped.state.Terminal := not_terminal_stop

theorem leaveLoop_run (w : World R) :
    leaveLoop w = .ok ⟨⟩ (if w.state = .nemuRunning then w.stopped else w) := by
  rw [leaveLoop, bind_ok (get_run w)]
  change (if w.state = .nemuRunning then setState .nemuStop else pure ()) w = _
  split <;> rfl

theorem cpuLoop_turn (n : Nat) (h : loopBody E w = .ok ⟨⟩ w₁) :
    cpuLoop E (n + 1) w = (if w₁.state = .nemuRunning then cpuLoop E n else pure ()) w₁ := by
  rw [cpuLoop, bind_ok h, bind_ok (get_run w₁)]
  rfl

theorem cpuExec_error (n : Nat) {e : Fault} (hw : ¬ w.state.Terminal)
    (h : loopBody E w.running = .error e w₁) : cpuExec E (n + 1) w = .error e w₁ := by
  rw [cpuExec_live _ hw]
  exact bind_error (bind_error h)

/-- A turn that does not leave the guest running is the last one. -/
theorem cpuExec_break (n : Nat) (hw : ¬ w.state.Terminal)
    (h : loopBody E w.running = .ok ⟨⟩ w₁) (hstate : w₁.state ≠ .nemuRunning) :
    cpuExec E (n + 1) w = .ok ⟨⟩ w₁ := by
  have hloop : cpuLoop E (n + 1) w.running = .ok ⟨⟩ w₁ := by
    rw [cpuLoop_turn n h, if_neg hstate]
    rfl
  rw [cpuExec_live _ hw, bind_ok hloop, leaveLoop_run, if_neg hstate]

/-- After any other turn the loop might as well have been left and entered again. -/
theorem cpuExec_turn (n : Nat) (hw : ¬ w.state.Terminal)
    (h : loopBody E w.running = .ok ⟨⟩ w₁) (hstate : w₁.state = .nemuRunning) :
    cpuExec E (n + 1) w = cpuExec E n w₁.stopped := by
  have hloop : cpuLoop E (n + 1) w.running = cpuLoop E n w₁ := by
    rw [cpuLoop_turn n h, if_pos hstate]
  rw [cpuExec_live _ hw, cpuExec_live _ (not_terminal_stopped w₁), stopped_running hstate]
  exact bind_run_congr hloop _

theorem cpuExec_one (hw : ¬ w.state.Terminal) (h : loopBody E w.running = .ok ⟨⟩ w₁)
    (hstate : w₁.state = .nemuRunning) : cpuExec E 1 w = .ok ⟨⟩ w₁.stopped := by
  rw [cpuExec_turn 0 hw h hstate, cpuExec_live _ (not_terminal_stopped w₁),
    stopped_running hstate]
  refine (bind_ok (pure_run _ w₁)).trans ?_
  rw [leaveLoop_run, if_pos hstate]

/-! ## Stepping -/

theorem siLoop_ended (n : Nat) (h : w.state.Terminal) : siLoop E n w = .ok ⟨⟩ w := by
  induction n with
  | zero => rfl
  | succ n ih =>
      rw [siLoop, bind_ok (cpuExec_ended 1 h)]
      exact ih

theorem siLoop_one (w : World R) : siLoop E 1 w = cpuExec E 1 w := by
  rw [siLoop]
  cases hrun : cpuExec E 1 w with
  | ok a w₁ => rw [bind_ok hrun]; rfl
  | error e w₁ => rw [bind_error hrun]

/-- Without a report in the middle, stepping and running are one and the same. -/
theorem siLoop_eq_cpuExec (hE : E.Unstopping) (n : Nat) (hw : ¬ w.state.Terminal)
    (hquiet : ∀ k < n, ∀ w₁ w₂, Runs E k w.running w₁ → loopBody E w₁ = .ok ⟨⟩ w₂ →
      ¬ WatchFires E w₁) :
    siLoop E (n + 1) w = cpuExec E (n + 1) w := by
  induction n generalizing w with
  -- on the number of turns behind the first: each call of `cpu_exec(1)` is one turn of the loop
  | zero => exact siLoop_one w
  | succ n ih =>
      rw [siLoop]
      cases hturn : loopBody E w.running with
      | error e w₁ => rw [bind_error (cpuExec_error 0 hw hturn), cpuExec_error _ hw hturn]
      | ok a w₁ =>
          by_cases hstate : w₁.state = .nemuRunning
          · -- still running: both go on behind the first turn
            rw [bind_ok (cpuExec_one hw hturn hstate), cpuExec_turn _ hw hturn hstate]
            refine ih (not_terminal_stopped w₁) fun k hk s₁ s₂ hruns => ?_
            rw [stopped_running hstate] at hruns
            exact hquiet (k + 1) (Nat.succ_lt_succ hk) s₁ s₂ (.succ hturn hstate hruns)
          · -- not stopped by a watchpoint, so the program has ended
            have hstop : w₁.state ≠ .nemuStop := by
              rw [ne_eq, (loopBody_ok hE hturn).2 (fun h => RunState.noConfusion h)]
              exact hquiet 0 (Nat.succ_pos n) _ w₁ (.zero _) hturn
            have hend : w₁.state.Terminal := by
              cases hs : w₁.state with
              | nemuStop => exact absurd hs hstop
              | nemuRunning => exact absurd hs hstate
              | nemuEnd => exact .inl rfl
              | nemuAbort => exact .inr rfl
            -- the calls that are left do nothing
            rw [bind_ok (cpuExec_break 0 hw hturn hstate), siLoop_ended _ hend,
              cpuExec_break _ hw hturn hstate]

/-! ## Counting -/

theorem add_ofNat_succ (c : BitVec 64) (m : Nat) :
    c + 1 + BitVec.ofNat 64 m = c + BitVec.ofNat 64 (m + 1) := by
  rw [BitVec.add_assoc, Nat.add_comm m 1, BitVec.ofNat_add]
  rfl

theorem add_ofNat_inj {c : BitVec 64} {m n : Nat} (hm : m ≤ 2147483647) (hn : n ≤ 2147483647)
    (h : c + BitVec.ofNat 64 m = c + BitVec.ofNat 64 n) : m = n := by
  have heq := congrArg BitVec.toNat ((BitVec.add_right_inj c).1 h)
  simp only [BitVec.toNat_ofNat] at heq
  omega

/-- `cpu_exec` leaves its loop behind the first turn that does not leave the guest running. -/
theorem cpuExec_stops (hE : E.Unstopping) {k n : Nat} (hk : k < n) (hw : ¬ w.state.Terminal)
    (hruns : Runs E k w.running w₁) (hturn : loopBody E w₁ = .ok ⟨⟩ w₂)
    (hstate : w₂.state ≠ .nemuRunning) :
    cpuExec E n w = .ok ⟨⟩ w₂ ∧ w₂.gNrGuestInstr = w.gNrGuestInstr + BitVec.ofNat 64 (k + 1) := by
  obtain ⟨n, rfl⟩ := Nat.exists_eq_add_of_lt hk
  induction k generalizing w with
  -- on the turns in front of the one that stops
  | zero =>
      cases hruns
      exact ⟨cpuExec_break _ hw hturn hstate, (loopBody_ok hE hturn).1⟩
  | succ k ih =>
      cases hruns with
      | succ hturn₀ hstate₀ hrest =>
          rename_i s
          have hs : Runs E k s.stopped.running w₁ := by
            rw [stopped_running hstate₀]
            exact hrest
          rcases ih (not_terminal_stopped s) hs (by omega) with ⟨hrun, hcount⟩
          have hfirst : s.gNrGuestInstr = w.gNrGuestInstr + 1 := (loopBody_ok hE hturn₀).1
          refine ⟨?_, ?_⟩
          · rw [show k + 1 + n + 1 = k + n + 1 + 1 by omega, cpuExec_turn _ hw hturn₀ hstate₀]
            exact hrun
          · rw [hcount, show s.stopped.gNrGuestInstr = _ from hfirst, add_ofNat_succ]

theorem cpuExec_one_count (hE : E.Unstopping) (hw : ¬ w.state.Terminal)
    (h : cpuExec E 1 w = .ok ⟨⟩ w₁) : w₁.gNrGuestInstr = w.gNrGuestInstr + 1 := by
  cases hturn : loopBody E w.running with
  | error e s => cases h.symm.trans (cpuExec_error 0 hw hturn)
  | ok a s =>
      have hcount : s.gNrGuestInstr = w.gNrGuestInstr + 1 := (loopBody_ok hE hturn).1
      by_cases hstate : s.state = .nemuRunning
      · cases h.symm.trans (cpuExec_one hw hturn hstate)
        exact hcount
      · cases h.symm.trans (cpuExec_break 0 hw hturn hstate)
        exact hcount

/-- At least one instruction, unless the program has ended, and at most `n`. -/
theorem siLoop_count (hE : E.Unstopping) {n : Nat} (h : siLoop E n w = .ok ⟨⟩ w₁) :
    ∃ m ≤ n, w₁.gNrGuestInstr = w.gNrGuestInstr + BitVec.ofNat 64 m ∧
      (¬ w.state.Terminal → 0 < n → 0 < m) := by
  induction n generalizing w with
  | zero =>
      cases h
      exact ⟨0, Nat.le_refl 0, (BitVec.add_zero _).symm, fun _ hn => hn⟩
  | succ n ih =>
      by_cases hw : w.state.Terminal
      · cases h.symm.trans (siLoop_ended _ hw)
        exact ⟨0, Nat.zero_le _, (BitVec.add_zero _).symm, fun hnot => absurd hw hnot⟩
      · rcases bind_eq_ok.1 h with ⟨⟨⟩, s, hone, hrest⟩
        rcases ih hrest with ⟨m, hm, hcount, -⟩
        refine ⟨m + 1, Nat.succ_le_succ hm, ?_, fun _ _ => Nat.succ_pos m⟩
        rw [hcount, cpuExec_one_count hE hw hone, add_ofNat_succ]

/-- The turn that a watchpoint stopped is not the last one of `cmd_si`. -/
theorem siLoop_goes_on (hE : E.Unstopping) {k n : Nat} (hk : k + 1 < n) (hw : ¬ w.state.Terminal)
    (hruns : Runs E k w.running w₁) (hturn : loopBody E w₁ = .ok ⟨⟩ w₂)
    (hstate : w₂.state = .nemuStop) {s : World R} (h : siLoop E n w = .ok ⟨⟩ s) :
    ∃ m, k + 1 < m ∧ m ≤ n ∧ s.gNrGuestInstr = w.gNrGuestInstr + BitVec.ofNat 64 m := by
  induction k generalizing w n with
  -- on the turns in front of the one that the watchpoint stops
  | zero =>
      cases hruns
      obtain ⟨n, rfl⟩ := Nat.exists_eq_add_of_lt hk
      have hnot : w₂.state ≠ .nemuRunning := by simp [hstate]
      have hlive : ¬ w₂.state.Terminal := by simp [hstate, RunState.Terminal]
      rw [siLoop, bind_ok (cpuExec_break 0 hw hturn hnot)] at h
      rcases siLoop_count hE h with ⟨m, hm, hcount, hpos⟩
      have hone : w₂.gNrGuestInstr = w.gNrGuestInstr + 1 := (loopBody_ok hE hturn).1
      -- the next call enters the loop again, since the stop is not the end
      have hm₀ := hpos hlive (by omega)
      refine ⟨m + 1, by omega, by omega, ?_⟩
      rw [hcount, hone, add_ofNat_succ]
  | succ k ih =>
      cases hruns with
      | succ hturn₀ hstate₀ hrest =>
          rename_i s₀
          obtain ⟨n, rfl⟩ : ∃ m, n = m + 1 := ⟨n - 1, by omega⟩
          have hs : Runs E k s₀.stopped.running w₁ := by
            rw [stopped_running hstate₀]
            exact hrest
          rw [siLoop, bind_ok (cpuExec_one hw hturn₀ hstate₀)] at h
          rcases ih (by omega) (not_terminal_stopped s₀) hs h with ⟨m, hlow, hhigh, hcount⟩
          have hfirst : s₀.stopped.gNrGuestInstr = w.gNrGuestInstr + 1 :=
            (loopBody_ok hE hturn₀).1
          refine ⟨m + 1, by omega, by omega, ?_⟩
          rw [hcount, hfirst, add_ofNat_succ]

end Turns

/-! ## si N against cpu_exec(N) -/

/-- What a run of the guest is judged by: CPU, memory and devices, `nemu_state`, and the number of
instructions executed. -/
structure SameGuest (w w' : World R) : Prop where
  cpu : w'.machine.cpu = w.machine.cpu
  bus : w'.machine.bus = w.machine.bus
  nemuState : w'.machine.nemuState = w.machine.nemuState
  count : w'.gNrGuestInstr = w.gNrGuestInstr

/-- Both return, or both stop with the same fault. -/
def SameRun : EStateM.Result Fault (World R) Unit → EStateM.Result Fault (World R) Unit → Prop
  | .ok _ w, .ok _ w' => SameGuest w w'
  | .error e w, .error e' w' => e = e' ∧ SameGuest w w'
  | _, _ => False

theorem SameRun.refl (r : EStateM.Result Fault (World R) Unit) : SameRun r r := by
  cases r with
  | ok a w => exact ⟨rfl, rfl, rfl, rfl⟩
  | error e w => exact ⟨rfl, rfl, rfl, rfl, rfl⟩

theorem SameRun.ok {r : EStateM.Result Fault (World R) Unit} {w : World R}
    (h : SameRun r (.ok ⟨⟩ w)) : ∃ s, r = .ok ⟨⟩ s ∧ SameGuest s w := by
  cases r with
  | ok a s => exact ⟨s, rfl, h⟩
  | error e s => exact h.elim

/-- `cmd_si` and `cpu_exec` do the same, and neither executes an instruction behind the first one
that stopped the guest or ended the program. -/
structure StepsLikeRuns (E : Emulator R) (n : Nat) (w : World R) : Prop where
  same : SameRun (cmdSi E (some n) w) (cpuExec E n w)
  last : ¬ w.state.Terminal → ∀ k < n, ∀ w₁ w₂, Runs E k w.running w₁ →
    loopBody E w₁ = .ok ⟨⟩ w₂ → w₂.state ≠ .nemuRunning →
    ∃ s s', cmdSi E (some n) w = .ok ⟨⟩ s ∧ cpuExec E n w = .ok ⟨⟩ s' ∧
      s.gNrGuestInstr = w.gNrGuestInstr + BitVec.ofNat 64 (k + 1) ∧
      s'.gNrGuestInstr = w.gNrGuestInstr + BitVec.ofNat 64 (k + 1)

theorem cmdSi_some {n : Nat} (hn : 1 ≤ n) (E : Emulator R) (w : World R) :
    cmdSi E (some n) w = siLoop E n w := by
  rw [cmdSi, Option.getD_some, if_neg (by omega), Int.toNat_natCast]

/-- A report in the middle separates the two. -/
theorem not_sameRun_of_fires {E : Emulator R} (hE : E.Unstopping) {n k : Nat}
    (hn : n ≤ 2147483647) {w w₁ w₂ : World R} (hw : ¬ w.state.Terminal) (hk : k + 1 < n)
    (hruns : Runs E k w.running w₁) (hturn : loopBody E w₁ = .ok ⟨⟩ w₂)
    (hstop : w₂.state = .nemuStop) : ¬ SameRun (cmdSi E (some n) w) (cpuExec E n w) := by
  intro hsame
  have hnot : w₂.state ≠ .nemuRunning := by simp [hstop]
  rcases cpuExec_stops hE (Nat.lt_of_succ_lt hk) hw hruns hturn hnot with ⟨hrun, hcount⟩
  rw [hrun] at hsame
  rcases hsame.ok with ⟨s, hsi, hguest⟩
  rw [cmdSi_some (by omega)] at hsi
  rcases siLoop_goes_on hE hk hw hruns hturn hstop hsi with ⟨m, hlow, hhigh, hcount'⟩
  have heq : w.gNrGuestInstr + BitVec.ofNat 64 (k + 1) = w.gNrGuestInstr + BitVec.ofNat 64 m := by
    rw [← hcount, ← hcount', hguest.count]
  -- the counters would have to agree after different numbers of instructions
  have hinj := add_ofNat_inj (by omega) (by omega) heq
  omega

/-- For every argument of type `int`: stepping and running agree exactly when the program has ended
before, or no watched value in front of the last one has changed behind an instruction before the
last. -/
theorem si_iff {E : Emulator R} (hE : E.Unstopping) {n : Nat} (hn : 1 ≤ n ∧ n ≤ 2147483647)
    (w : World R) :
    StepsLikeRuns E n w ↔ (¬ w.state.Terminal → ∀ k w₁ w₂, k + 1 < n → Runs E k w.running w₁ →
      loopBody E w₁ = .ok ⟨⟩ w₂ → ¬ WatchFires E w₁) := by
  have hnotStop : ∀ {k : Nat} {s : World R}, Runs E k w.running s → s.state ≠ .nemuStop := by
    intro k s hruns
    -- every turn but the last leaves the guest running
    have hrunning : s.state = .nemuRunning := by
      generalize hstart : w.running = w₀ at hruns
      have hfirst : w₀.state = .nemuRunning := hstart ▸ rfl
      clear hstart
      induction hruns with
      | zero => exact hfirst
      | succ _ hstate _ ih => exact ih hstate
    simp [hrunning]
  constructor
  · intro h hw k w₁ w₂ hk hruns hturn hfires
    have hstop := ((loopBody_ok hE hturn).2 (hnotStop hruns)).2 hfires
    exact not_sameRun_of_fires hE hn.2 hw hk hruns hturn hstop h.same
  · intro hquiet
    -- no report in the middle, so the two runs are equal
    have heq : cmdSi E (some n) w = cpuExec E n w := by
      rw [cmdSi_some hn.1]
      by_cases hw : w.state.Terminal
      · rw [siLoop_ended n hw, cpuExec_ended n hw]
      · obtain ⟨n, rfl⟩ : ∃ m, n = m + 1 := ⟨n - 1, by omega⟩
        refine siLoop_eq_cpuExec hE n hw fun k hk w₁ w₂ hruns hturn => ?_
        exact hquiet hw k w₁ w₂ (Nat.succ_lt_succ hk) hruns hturn
    refine ⟨heq ▸ SameRun.refl _, fun hw k hk w₁ w₂ hruns hturn hstate => ?_⟩
    rcases cpuExec_stops hE hk hw hruns hturn hstate with ⟨hrun, hcount⟩
    exact ⟨w₂, w₂, heq.trans hrun, hrun, hcount, hcount⟩

/-! ## A watched store -/

theorem Runs.unique {E : Emulator R} {k : Nat} {w w₁ w₂ : World R} (h : Runs E k w w₁)
    (h' : Runs E k w w₂) : w₁ = w₂ := by
  induction h with
  | zero w =>
      cases h'
      rfl
  | succ hturn _ _ ih =>
      cases h' with
      | succ hturn' _ hrest' =>
          cases hturn.symm.trans hturn'
          exact ih hrest'

/-- Between the instructions of a program under the watchpoints of `watchWord`. -/
structure AtWork (p : Processor) (count : BitVec 64) (w : World Unit) : Prop where
  watching : w.Watching (fun _ => True) watchWord
  printed : w.machine.Printed
  state : w.state = .nemuRunning
  processor : w.machine.processor = p
  count : w.gNrGuestInstr = count

/-- The watched word of a processor. -/
def Processor.word (p : Processor) : Word := LittleEndian.load p.pmem 0x100 4

theorem Processor.shows_word (p : Processor) (B : BitVec 24 → Prop) :
    p.Shows B watchWord [0] [p.word] := by
  intro d hwp hpmem hmap _
  rcases callExpr_word p.cpu 1 d hmap with ⟨buf, hcall⟩
  rw [hpmem] at hcall
  exact .cons ⟨_, hcall, rfl⟩ .nil

/-- A turn stops the guest when the watched word has changed. -/
theorem AtWork.turn {p p' : Processor} {count : BitVec 64} {w : World Unit} (hw : AtWork p count w)
    (hcount : count < logMax) (hinstr : p.Instructs p') :
    ∃ w', loopBody plainX86 w = .ok ⟨⟩ w' ∧ (p'.word = 0 → AtWork p' (count + 1) w') ∧
      (p'.word ≠ 0 → w'.state = .nemuStop) := by
  rw [← hw.processor] at hinstr
  rcases hinstr.execOnce hw.watching.boundary hw.printed.trace with
    ⟨npc, s, hrun, hp, hstate, -⟩
  subst hp
  have hdevice : DeviceReturns (pure ()) := fun io => ⟨io, rfl⟩
  have hturns : ∃ w' fired, loopBody plainX86 w = .ok ⟨⟩ w' ∧
      TurnOf (fun _ => True) watchWord [0, 1] [s.processor.word] s w w' fired :=
    turn_of_shows hdevice watchWord_lists (List.cons_ne_nil _ _) hw.watching hw.printed hrun
      (s.processor.shows_word _)
  rcases hturns with ⟨w', fired, hbody, hturn⟩
  have hfires : fired = true ↔ s.processor.word ≠ 0 := hturn.fires.trans changed_word_iff
  have hstate' := hturn.nemuState
  refine ⟨w', hbody, fun hzero => ?_, fun hne => ?_⟩
  · have hno : fired = false := Bool.eq_false_iff.2 fun h => hfires.1 h hzero
    rw [hno, if_neg Bool.false_ne_true] at hstate'
    refine ⟨hturn.watching, hturn.printed (hw.count ▸ hcount), ?_, hturn.processor, ?_⟩
    · change w'.machine.nemuState.state = _
      rw [hstate', hstate]
      exact hw.state
    · rw [hturn.count, hw.count]
  · rw [hfires.2 hne, if_pos rfl] at hstate'
    exact congrArg NEMUState.state hstate'

/-- `storeProgram` from its start. -/
def startWorld : World Unit := programWorld 0 0x100000

/-- The three stores, of which the last one changes the watched word. -/
theorem startWorld_stores :
    ∃ p₁ p₂ p₃ : Processor, startWorld.machine.processor.Instructs p₁ ∧ p₁.Instructs p₂ ∧
      p₂.Instructs p₃ ∧ p₁.word = 0 ∧ p₂.word = 0 ∧ p₃.word = 1 ∧ p₃.cpu.pc = 0x10001e := by
  let p₁ := (storeWord 0x200 1).exec 0 startWorld.machine.processor
  let p₂ := (storeWord 0x204 2).exec 0 p₁
  let p₃ := (storeWord 0x100 1).exec 0 p₂
  have hmem : ∀ a : Word, a.toNat < 0x1000 → (Place.mem a).InPmem 4 := fun a ha => by
    have hsize : pmemSize = 134217728 := rfl
    change a.toNat + 4 ≤ pmemSize
    omega
  refine ⟨p₁, p₂, p₃, ?_, ?_, ?_, by decide, by decide, by decide, by decide⟩
  · exact .mov _ 0 (by decide) (by unfold LittleEndian.Holds; decide) (by decide) trivial
      (hmem 0x200 (by decide))
  · exact .mov _ 0 (by decide) (by unfold LittleEndian.Holds; decide) (by decide) trivial
      (hmem 0x204 (by decide))
  · exact .mov _ 0 (by decide) (by unfold LittleEndian.Holds; decide) (by decide) trivial
      (hmem 0x100 (by decide))

/-- The two turns in front of the one that stops the guest. -/
theorem startWorld_turns :
    ∃ w₁ w₂ w₃, loopBody plainX86 startWorld.running = .ok ⟨⟩ w₁ ∧ w₁.state = .nemuRunning ∧
      loopBody plainX86 w₁ = .ok ⟨⟩ w₂ ∧ w₂.state = .nemuRunning ∧
      loopBody plainX86 w₂ = .ok ⟨⟩ w₃ ∧ w₃.state = .nemuStop := by
  rcases startWorld_stores with ⟨p₁, p₂, p₃, h₁, h₂, h₃, hword₁, hword₂, hword₃, -⟩
  have hstart : AtWork startWorld.machine.processor 0 startWorld.running :=
    ⟨⟨⟨rfl, rfl, rfl⟩, rfl, fun _ => trivial⟩, ⟨⟨rfl, rfl, rfl⟩, fun _ => Nat.zero_le _⟩, rfl, rfl,
      rfl⟩
  rcases hstart.turn (by decide) h₁ with ⟨w₁, hbody₁, hquiet₁, -⟩
  have hw₁ := hquiet₁ hword₁
  rcases hw₁.turn (by decide) h₂ with ⟨w₂, hbody₂, hquiet₂, -⟩
  have hw₂ := hquiet₂ hword₂
  rcases hw₂.turn (by decide) h₃ with ⟨w₃, hbody₃, -, hstop⟩
  have hchanged : p₃.word ≠ 0 := by
    rw [hword₃]
    decide
  exact ⟨w₁, w₂, w₃, hbody₁, hw₁.state, hbody₂, hw₂.state, hbody₃, hstop hchanged⟩

/-- Three instructions, of which the last one changes the watched word. -/
theorem si_iff_three : StepsLikeRuns plainX86 3 startWorld := by
  rcases startWorld_turns with ⟨s₁, s₂, -, hbody₁, hstate₁, hbody₂, hstate₂, -⟩
  refine (si_iff (x86_unstopping _ _ _) (by decide) startWorld).2 fun _ k w₁ w₂ hk hruns hturn => ?_
  have hE := x86_unstopping (R := Unit) false .idle (pure ())
  -- the first two turns leave the guest running
  have hquiet : w₁.state = .nemuRunning ∧ w₂.state = .nemuRunning := by
    have hk₂ : k = 0 ∨ k = 1 := by omega
    rcases hk₂ with rfl | rfl
    · cases hruns
      cases hbody₁.symm.trans hturn
      exact ⟨rfl, hstate₁⟩
    · cases hruns.unique (.succ hbody₁ hstate₁ (.zero _))
      cases hbody₂.symm.trans hturn
      exact ⟨hstate₁, hstate₂⟩
  rw [← (loopBody_ok hE hturn).2 (by rw [hquiet.1]; exact RunState.noConfusion), hquiet.2]
  exact RunState.noConfusion

/-- `si 4` executes the instruction behind the one at which `cpu_exec(4)` stops. -/
theorem startWorld_steps_on :
    ¬ SameRun (cmdSi plainX86 (some 4) startWorld) (cpuExec plainX86 4 startWorld) := by
  rcases startWorld_turns with ⟨s₁, s₂, s₃, hbody₁, hstate₁, hbody₂, hstate₂, hbody₃, hstop⟩
  exact not_sameRun_of_fires (x86_unstopping _ _ _) (by decide) not_terminal_stop (by decide)
    (.succ hbody₁ hstate₁ (.succ hbody₂ hstate₂ (.zero _))) hbody₃ hstop

end Nemu
