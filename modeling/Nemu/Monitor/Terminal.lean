import Nemu.Monitor.WatchpointCheck
import Nemu.Monitor.WorldRules
import Nemu.X86.Processor

/-!
# The end of the guest program

Once `nemu_state.state` is `NEMU_END` or `NEMU_ABORT`, only the watchpoint check behind the same
instruction can move it away.  Every other statement keeps it, and no instruction is executed in
such a state.
-/

namespace Nemu

open StateRules

variable {R : Type}

/-! ## Terminal states -/

def RunState.Terminal (s : RunState) : Prop := s = .nemuEnd ∨ s = .nemuAbort

def World.state (w : World R) : RunState := w.machine.nemuState.state

namespace Config

def Terminal (a : Config R) : Prop := a.world.state.Terminal

/-- The next statement executes a guest instruction. -/
def Executing (a : Config R) : Prop := ∃ n, a.point = .execOnce n

/-- The next statement is the watchpoint check, and a watched value in front of the last one is not
the stored one. -/
def Fires (a : Config R) : Prop :=
  (∃ n, a.point = .check n) ∧ a.world.debugger.ShowsChange a.world.machine.cpu

end Config

theorem not_terminal_running : ¬ RunState.nemuRunning.Terminal := by
  rintro (h | h) <;> cases h

theorem not_terminal_stop : ¬ RunState.nemuStop.Terminal := by
  rintro (h | h) <;> cases h

/-! ## What statements do to the state -/

/-- A terminal state stays terminal. -/
def Stays (w w' : World R) : Prop := w.state.Terminal → w'.state.Terminal

instance : IsPreorder (World R) Stays where
  refl _ h := h
  trans _ _ _ h h' := h' ∘ h

theorem Stays.of_eq {w w' : World R} (h : w'.machine.nemuState = w.machine.nemuState) :
    Stays w w' := by
  intro ht
  unfold World.state at ht ⊢
  rwa [h]

/-- A failing comparison moves the state to `NEMU_ABORT`; nothing else in the debugger or in
`difftest_step` touches it. -/
instance : DiffRel AnyBus (@Stays R) where
  debugger _ _ _ := Stays.of_eq rfl
  bus _ _ _ := Stays.of_eq rfl
  diff _ _ := Stays.of_eq rfl
  isSkipRef _ := fun _ => Stays.of_eq rfl
  abort _ _ := fun _ => .inr rfl

section Emulator

variable (E : Emulator R)

/-- A call in a terminal state returns at once. -/
theorem entry_run (c : Command) (n : Nat) {w : World R} (ht : w.state.Terminal) :
    Point.run E c (.entry n) w = .ok .prompt w := by
  rw [Point.run, bind_ok (get_run w)]
  rcases ht with h | h
  · rw [show w.machine.nemuState.state = .nemuEnd from h]
    rfl
  · rw [show w.machine.nemuState.state = .nemuAbort from h]
    rfl

theorem entry_stays (c : Command) (n : Nat) : Within Stays (Point.run E c (.entry n)) := by
  intro w ht
  rw [entry_run E c n ht]
  exact ht

/-- The last statement of a call sets the state only if the guest still runs. -/
theorem finish_stays (c : Command) : Within Stays (Point.run E c .finish) := by
  intro w ht
  have hnot : w.machine.nemuState.state ≠ .nemuRunning := by
    intro h
    unfold World.state at ht
    rw [h] at ht
    exact not_terminal_running ht
  have hrun : Point.run E c .finish w = .ok .prompt w := by
    rw [Point.run]
    rw [bind_ok (get_run w), if_neg hnot]
    rfl
  rw [hrun]
  exact ht

/-- Everything but an instruction and the watchpoint check. -/
theorem point_stays (c : Command) {p : Point} (hexec : ∀ n, p ≠ .execOnce n)
    (hcheck : ∀ n, p ≠ .check n) : Within Stays (p.run E c) := by
  cases p with
  | prompt => exact command_within c
  | entry n => exact entry_stays E c n
  | loopTest n => exact Within.pure _
  | execOnce n => exact absurd rfl (hexec n)
  | difftest n oriPc =>
      refine Within.get.bind fun w => ?_
      exact Within.ite ((difftestStep_within E _ _).bind fun _ => Within.pure _) (Within.pure _)
  | asmPrint n =>
      refine Within.get.bind fun w => ?_
      have hprint : Within (@Stays R) (onMachine Nemu.asmPrint) := fun _ => Stays.of_eq rfl
      exact Within.ite (hprint.bind fun _ => Within.pure _) (Within.pure _)
  | check n => exact absurd rfl (hcheck n)
  | count n => exact Within.bind (Within.modify fun _ => Stays.of_eq rfl) fun _ => Within.pure _
  | deviceUpdate n => exact (onDevices_within _).bind fun _ => Within.pure _
  | breakTest n => exact breakTest_within E c n
  | finish => exact finish_stays E c
  | exited => exact Within.pure _

/-! ## The watchpoint check -/

/-- What makes a check report a change. -/
theorem onCheck_true_iff {cpu : CPUState} {w : World R} :
    (∃ w', onDebugger (Nemu.check cpu) w = .ok true w') ↔ w.debugger.ShowsChange cpu := by
  rw [← check_true_iff]
  unfold onDebugger
  cases Nemu.check cpu w.debugger with
  | ok flag d => simp
  | error e d => simp

theorem check_run_true {w w' : World R} (c : Command) (n : Nat)
    (h : onDebugger (Nemu.check w.machine.cpu) w = .ok true w') :
    Point.run E c (.check n) w = .ok (.count n)
      { w' with
        machine := { w'.machine with
          nemuState := { w'.machine.nemuState with state := .nemuStop } } } := by
  rw [Point.run]
  rw [bind_ok (get_run w)]
  exact bind_ok h

/-- A check without a change keeps a terminal state. -/
theorem check_stays {w : World R} (c : Command) (n : Nat)
    (h : ¬ w.debugger.ShowsChange w.machine.cpu) :
    Stays w (final (Point.run E c (.check n) w)) := by
  have hstays := onCheck_within (W := Stays) w.machine.cpu w
  rw [Point.run]
  rw [bind_ok (get_run w)]
  cases hrun : onDebugger (Nemu.check w.machine.cpu) w with
  | ok fired w' =>
      rw [hrun] at hstays
      cases fired with
      | true => exact absurd (onCheck_true_iff.1 ⟨w', hrun⟩) h
      | false =>
          rw [bind_ok hrun]
          exact hstays
  | error e w' =>
      rw [hrun] at hstays
      rw [bind_error hrun]
      exact hstays

/-! ## Steps -/

/-- Instructions are executed in the state `NEMU_RUNNING` only. -/
def Config.Live (a : Config R) : Prop :=
  (∃ n, a.point = .loopTest n ∨ a.point = .execOnce n) → a.world.state = .nemuRunning

theorem Config.Live.not_executing {a : Config R} (h : a.Live) (ht : a.Terminal) :
    ¬ a.Executing := by
  rintro ⟨n, hn⟩
  have hrunning := h ⟨n, .inr hn⟩
  unfold Config.Terminal at ht
  rw [hrunning] at ht
  exact not_terminal_running ht

/-- One step from a terminal state in which no watchpoint fires. -/
theorem next_terminal (c : Command) {a : Config R} (hlive : a.Live) (ht : a.Terminal)
    (hfires : ¬ a.Fires) : (a.next E c).Terminal := by
  unfold Config.Terminal
  rw [next_world]
  by_cases hcheck : ∃ n, a.point = .check n
  · rcases hcheck with ⟨n, hn⟩
    rw [hn]
    exact check_stays E c n (fun h => hfires ⟨⟨n, hn⟩, h⟩) ht
  · have hexec : ∀ n, a.point ≠ .execOnce n := fun n hn => hlive.not_executing ht ⟨n, hn⟩
    exact point_stays E c hexec (fun n hn => hcheck ⟨n, hn⟩) a.world ht

/-- The loop is entered, and gone on with, in the state `NEMU_RUNNING` only. -/
theorem point_loop {c : Command} {p q : Point} {w w' : World R}
    (hlive : (⟨p, w⟩ : Config R).Live) (h : p.run E c w = .ok q w')
    (hq : ∃ n, q = .loopTest n ∨ q = .execOnce n) : w'.state = .nemuRunning := by
  have hflow := point_flow h
  rcases hq with ⟨n, rfl | rfl⟩
  · -- the loop test is reached from the entry or from a `break` test that found it running
    cases hflow with
    | start =>
        rw [Point.run, bind_ok (get_run w)] at h
        cases hstate : w.machine.nemuState.state <;> rw [hstate] at h <;> cases h
        · rfl
        · rfl
    | again m =>
        rw [Point.run, bind_ok (get_run w)] at h
        split at h
        case isTrue hrunning =>
          cases h
          exact hrunning
        case isFalse => cases h
  · cases hflow with
    | execute =>
        injection h with _ hw
        rw [← hw]
        exact hlive ⟨n, .inl rfl⟩

theorem next_live (c : Command) {a : Config R} (h : a.Live) : (a.next E c).Live := by
  rcases a with ⟨p, w⟩
  unfold Config.next
  dsimp only
  cases hrun : p.run E c w with
  | ok q w' => exact fun hq => point_loop E h hrun hq
  | error e w' =>
      rintro ⟨n, hn | hn⟩ <;> cases hn

theorem Steps.live {start a : Config R} (hstart : start.point = .prompt) (h : Steps E start a) :
    a.Live := by
  induction h with
  | refl =>
      rintro ⟨n, hn | hn⟩ <;> rw [hstart] at hn <;> cases hn
  | tail _ hstep ih =>
      rcases hstep with ⟨c, rfl⟩
      exact next_live E c ih

/-! ## Runs -/

/-- The statements from which a terminal state comes to the prompt without another check. -/
inductive Point.PastCheck : Point → Prop
  | prompt : PastCheck .prompt
  | entry (n : Nat) : PastCheck (.entry n)
  | count (n : Nat) : PastCheck (.count n)
  | deviceUpdate (n : Nat) : PastCheck (.deviceUpdate n)
  | breakTest (n : Nat) : PastCheck (.breakTest n)
  | finish : PastCheck .finish
  | exited : PastCheck .exited

theorem next_pastCheck (c : Command) {a : Config R} (ha : a.point.PastCheck) (ht : a.Terminal) :
    (a.next E c).point.PastCheck := by
  rcases a with ⟨p, w⟩
  have hnot : w.machine.nemuState.state ≠ .nemuRunning := by
    intro hrunning
    change RunState.Terminal w.machine.nemuState.state at ht
    rw [hrunning] at ht
    exact not_terminal_running ht
  cases ha with
  | prompt =>
      have hflow := next_flow E c ⟨.prompt, w⟩
      generalize (Config.next E c ⟨.prompt, w⟩).point = q at hflow
      cases hflow with
      | stay => exact .prompt
      | call n => exact .entry n
      | exit => exact .exited
  | entry n =>
      simp only [Config.next, entry_run E c n ht]
      exact .prompt
  | count n => exact .deviceUpdate n
  | deviceUpdate n =>
      have hflow := next_flow E c ⟨.deviceUpdate n, w⟩
      generalize (Config.next E c ⟨.deviceUpdate n, w⟩).point = q at hflow
      cases hflow with
      | test => exact .breakTest n
      | exit => exact .exited
  | breakTest n =>
      -- the loop is left
      have hrun : Point.run E c (.breakTest n) w = .ok .finish w := by
        rw [Point.run, bind_ok (get_run w), if_neg hnot]
        rfl
      simp only [Config.next, hrun]
      exact .finish
  | finish =>
      have hflow := next_flow E c ⟨.finish, w⟩
      generalize (Config.next E c ⟨.finish, w⟩).point = q at hflow
      cases hflow with
      | back => exact .prompt
      | exit => exact .exited
  | exited => exact .exited

/-- A terminal state behind the last check stays whatever is typed, and no check is made. -/
theorem Steps.ended {a b : Config R} (ha : a.point.PastCheck) (ht : a.Terminal)
    (h : Steps E a b) : b.Terminal ∧ b.point.PastCheck := by
  induction h with
  | refl => exact ⟨ht, ha⟩
  | tail _ hstep ih =>
      rcases hstep with ⟨c, rfl⟩
      rcases ih with ⟨hterm, hpast⟩
      refine ⟨?_, next_pastCheck E c hpast hterm⟩
      unfold Config.Terminal
      rw [next_world]
      -- none of these statements is a check or an instruction
      refine point_stays E c (fun n hn => ?_) (fun n hn => ?_) _ hterm
      · rw [hn] at hpast
        cases hpast
      · rw [hn] at hpast
        cases hpast

/-- From a terminal state that a run of the program reaches: every later state is terminal, with
no instruction to be executed, if and only if at every later watchpoint check the watched values in
front of the last one are the stored ones. -/
theorem terminal_absorbing_iff {start a : Config R} (hstart : start.point = .prompt)
    (hreach : Steps E start a) (ht : a.Terminal) :
    (∀ b, Steps E a b → b.Terminal ∧ ¬ b.Executing) ↔ ∀ b, Steps E a b → ¬ b.Fires := by
  constructor
  · rintro h b hsteps ⟨⟨n, hn⟩, hchange⟩
    -- the check itself moves the state to `NEMU_STOP`
    rcases onCheck_true_iff.2 hchange with ⟨w', hcheck⟩
    have hstop := (h _ (hsteps.tail ⟨.other, rfl⟩)).1
    unfold Config.Terminal at hstop
    rw [next_world, hn, check_run_true E .other n hcheck] at hstop
    exact not_terminal_stop hstop
  · intro h b hsteps
    have hlive : b.Live := Steps.live E hstart (hreach.trans hsteps)
    have hterm : b.Terminal := by
      clear hlive
      induction hsteps with
      | refl => exact ht
      | tail hab hstep ih =>
          rcases hstep with ⟨c, rfl⟩
          exact next_terminal E c (Steps.live E hstart (hreach.trans hab)) ih (h _ hab)
    exact ⟨hterm, hlive.not_executing hterm⟩

end Emulator

/-! ## A watchpoint at the end of the program -/

/-- `movl $v,addr` -/
def storeWord (addr v : Word) : Mov := .immToRm false ⟨0x05, 0, addr⟩ v

/-- `movl $1,0x200`, `movl $2,0x204`, `movl $1,0x100` and two `nemu_trap`. -/
def storeProgram : List Byte :=
  (storeWord 0x200 1).encode 0 ++ (storeWord 0x204 2).encode 0 ++ (storeWord 0x100 1).encode 0 ++
    [0xd6, 0xd6]

/-- The program at 0x100000, about to go on at `pc`, with `v` at 0x100 and the watchpoints of
`watchWord`.  What lies behind the flags is not 0. -/
def programWorld (v pc : Word) : World Unit :=
  { World.zero () with
    machine := { Machine.zero with
      cpu := { CPUState.zero with pc }
      bus := { Bus.zero with
        pmem := LittleEndian.store (memcpy (fun _ => 0) 0x100000 storeProgram) 0x100 4 v } }
    wp := watchWord
    behind := fun n => BitVec.ofNat 24 (n + 1) }

/-- The program has stored 1 and stands in front of the first `nemu_trap`. -/
def trapWorld : World Unit := programWorld 1 0x10001e

/-- The emulator that is run on it. -/
abbrev plainX86 : Emulator Unit := .x86 false .idle (pure ())

/-- `nemu_trap` at the start of a call. -/
theorem programWorld_ends (v : Word) :
    ∃ s : Machine, Steps plainX86 ⟨.prompt, programWorld v 0x10001e⟩
        ⟨.difftest 1 0x10001e, { (programWorld v 0x10001e).running with machine := s }⟩ ∧
      s.nemuState.state = .nemuEnd ∧ s.bus.pmemMap = registerPmem 0 ∧
      LittleEndian.load s.bus.pmem 0x100 4 = v := by
  let w := (programWorld v 0x10001e).running
  have hcode : w.machine.bus.pmem 0x10001e = 0xd6 := by
    change LittleEndian.store (memcpy (fun _ => 0) 0x100000 storeProgram) 0x100 4 v 0x10001e = _
    rw [LittleEndian.store_apply, if_neg (by decide)]
    decide
  have hprinted : w.machine.Printed := ⟨⟨rfl, rfl, rfl⟩, fun _ => Nat.zero_le _⟩
  have hin : (0x10001e : Word).toNat < pmemSize := by decide
  rcases execOnce_nemuTrap (s := w.machine) ⟨rfl, rfl, rfl⟩ hprinted hcode hin with
    ⟨npc, s, hrun, hstate, hcpu, hbus⟩
  have hexec : Step plainX86 ⟨.execOnce 1, w⟩ ⟨.difftest 1 0x10001e, { w with machine := s }⟩ := by
    refine step_of_run (c := .other) ?_
    have honce : onMachine execOnce w = .ok npc { w with machine := s } := by
      simp only [onMachine, hrun]
    rw [Point.run, bind_ok (get_run w)]
    exact bind_ok honce
  refine ⟨s, ?_, congrArg NEMUState.state hstate, ?_, ?_⟩
  · exact (steps_call Nat.one_pos rfl).trans (.single hexec)
  · rw [hbus]
    rfl
  · rw [hbus]
    exact LittleEndian.load_store _ _ _

/-- With the watched word as it was, the program has ended for good. -/
theorem terminal_absorbing_iff_ended :
    ∃ a, Steps plainX86 ⟨.prompt, programWorld 0 0x10001e⟩ a ∧ a.Terminal ∧
      ∀ b, Steps plainX86 a b → b.Terminal ∧ ¬ b.Executing := by
  rcases programWorld_ends 0 with ⟨s, hsteps, hend, hmap, hload⟩
  let w : World Unit := { (programWorld 0 0x10001e).running with machine := s }
  refine ⟨_, hsteps, .inl hend, (terminal_absorbing_iff plainX86 rfl hsteps (.inl hend)).2 ?_⟩
  intro b hb
  let w' : World Unit := { w with machine := { s with trace := s.trace.ofBuffers [] [] } }
  have hquiet : ¬ w'.debugger.ShowsChange w'.machine.cpu := by
    have hiff := showsChange_word_iff s.cpu (d := w'.debugger) rfl hmap
    exact fun hchange => hiff.1 hchange hload
  -- two statements, the check, and then the way to the prompt
  rcases hb.cases_head with rfl | ⟨_, ⟨c, rfl⟩, hb⟩
  · rintro ⟨⟨n, hn⟩, -⟩
    cases hn
  change Steps plainX86 ⟨.asmPrint 1, w⟩ b at hb
  rcases hb.cases_head with rfl | ⟨_, ⟨c', rfl⟩, hb⟩
  · rintro ⟨⟨n, hn⟩, -⟩
    cases hn
  change Steps plainX86 ⟨.check 1, w'⟩ b at hb
  rcases hb.cases_head with rfl | ⟨_, ⟨c', rfl⟩, hb⟩
  · exact fun hfires => hquiet hfires.2
  have hstays : Config.Terminal (Config.next plainX86 c' ⟨.check 1, w'⟩) := by
    unfold Config.Terminal
    rw [next_world]
    exact check_stays plainX86 c' 1 hquiet (.inl hend)
  have hpast : (Config.next plainX86 c' ⟨.check 1, w'⟩).point.PastCheck := by
    have hflow := next_flow plainX86 c' ⟨.check 1, w'⟩
    generalize (Config.next plainX86 c' ⟨.check 1, w'⟩).point = q at hflow
    cases hflow with
    | count => exact .count 1
    | exit => exact .exited
  rintro ⟨⟨n, hn⟩, -⟩
  have hlater := (Steps.ended plainX86 hpast hstays hb).2
  rw [hn] at hlater
  cases hlater

/-- From `NEMU_STOP` the next call executes an instruction again. -/
theorem steps_resume {E : Emulator R} (hdev : E.deviceUpdate = pure ()) (n : Nat) {w : World R}
    (hstop : w.machine.nemuState.state = .nemuStop) :
    ∃ b, Steps E ⟨.count n, w⟩ b ∧ b.world.state = .nemuRunning ∧ b.Executing := by
  -- one instruction counted, then the loop is left and `cpu_exec(1)` typed
  let w₁ : World R := { w with gNrGuestInstr := w.gNrGuestInstr + 1 }
  have hstop₁ : w₁.machine.nemuState.state = .nemuStop := hstop
  have hcount : Step E ⟨.count n, w⟩ ⟨.deviceUpdate n, w₁⟩ := step_of_run (c := .other) rfl
  have hdevice : Step E ⟨.deviceUpdate n, w₁⟩ ⟨.breakTest n, w₁⟩ := by
    refine step_of_run (c := .other) ?_
    rw [Point.run, hdev]
    rfl
  have hbreak : Step E ⟨.breakTest n, w₁⟩ ⟨.finish, w₁⟩ := by
    refine step_of_run (c := .other) ?_
    rw [Point.run, bind_ok (get_run w₁), if_neg (by rw [hstop₁]; simp)]
    rfl
  have hfinish : Step E ⟨.finish, w₁⟩ ⟨.prompt, w₁⟩ := by
    refine step_of_run (c := .other) ?_
    rw [Point.run, bind_ok (get_run w₁), if_neg (by rw [hstop₁]; simp)]
    rfl
  refine ⟨⟨.execOnce 1, w₁.running⟩, ?_, rfl, 1, rfl⟩
  calc Steps E ⟨.count n, w⟩ ⟨.deviceUpdate n, w₁⟩ := .single hcount
    Steps E _ ⟨.breakTest n, w₁⟩ := .single hdevice
    Steps E _ ⟨.finish, w₁⟩ := .single hbreak
    Steps E _ ⟨.prompt, w₁⟩ := .single hfinish
    Steps E _ ⟨.execOnce 1, w₁.running⟩ := steps_call Nat.one_pos hstop₁

/-- `nemu_trap` ends the program, the watchpoint stops it, and the next `c` goes on behind it. -/
theorem trapWorld_resumes :
    ∃ a b, Steps plainX86 ⟨.prompt, trapWorld⟩ a ∧ a.world.state = .nemuEnd ∧
      Steps plainX86 a b ∧ b.world.state = .nemuRunning ∧ b.Executing := by
  rcases programWorld_ends 1 with ⟨s, hend, hstate, hmap, hload⟩
  let w₂ : World Unit := { trapWorld.running with machine := s }
  let w₃ : World Unit := { w₂ with machine := { s with trace := s.trace.ofBuffers [] [] } }
  have hdiff : Step plainX86 ⟨.difftest 1 0x10001e, w₂⟩ ⟨.asmPrint 1, w₂⟩ :=
    step_of_run (c := .other) rfl
  have hprint : Step plainX86 ⟨.asmPrint 1, w₂⟩ ⟨.check 1, w₃⟩ := step_of_run (c := .other) rfl
  have hchange : w₃.debugger.ShowsChange w₃.machine.cpu := by
    refine (showsChange_word_iff s.cpu (d := w₃.debugger) rfl hmap).2 ?_
    change LittleEndian.load s.bus.pmem 0x100 4 ≠ 0
    rw [hload]
    decide
  rcases onCheck_true_iff.2 hchange with ⟨w₄, hcheck⟩
  have hfire := step_of_run (check_run_true plainX86 .other 1 hcheck)
  rcases steps_resume (E := plainX86) rfl 1
    (w := { w₄ with
      machine := { w₄.machine with
        nemuState := { w₄.machine.nemuState with state := .nemuStop } } }) rfl with
    ⟨b, hsteps, hrunning, hexecuting⟩
  refine ⟨_, b, hend, hstate, ?_, hrunning, hexecuting⟩
  calc Steps plainX86 ⟨.difftest 1 0x10001e, w₂⟩ ⟨.asmPrint 1, w₂⟩ := .single hdiff
    Steps plainX86 _ ⟨.check 1, w₃⟩ := .single hprint
    Steps plainX86 _ _ := .single hfire
    Steps plainX86 _ b := hsteps

end Nemu
