import Nemu.Monitor.CatchUp
import Nemu.Monitor.SingleStep

/-!
# Both designs in step

Differential testing compares the registers after every instruction.  If the reference design
executes what the emulator executes, and takes over the registers where it is told to, every comparison
of a whole run is made between equal registers: neither the debugger nor the devices nor the skipped
instructions bring the two apart.  What becomes of the program is then up to
`isa_difftest_checkregs`.
-/

namespace Nemu

open StateRules

variable {R : Type}

/-! ## What only looks at the guest -/

/-- What an instruction starts from, apart from the devices. -/
structure SameInputs (s s' : Machine) : Prop where
  cpu : s'.cpu = s.cpu
  decinfo : s'.decinfo = s.decinfo
  bus : SamePmem s.bus s'.bus

/-- Neither the guest nor `diff-test.c` is changed. -/
structure Observes (w w' : World R) : Prop where
  guest : SameInputs w.machine w'.machine
  diff : w'.diff = w.diff

theorem Observes.of_eq {w w' : World R} (hcpu : w'.machine.cpu = w.machine.cpu)
    (hdecinfo : w'.machine.decinfo = w.machine.decinfo) (hbus : w'.machine.bus = w.machine.bus)
    (hdiff : w'.diff = w.diff) : Observes w w' := by
  refine ⟨⟨hcpu, hdecinfo, ?_⟩, hdiff⟩
  rw [hbus]
  exact refl_of SamePmem _

instance : WorldRel SamePmem (@Observes R) where
  refl _ := .of_eq rfl rfl rfl rfl
  trans _ _ _ h h' :=
    ⟨⟨h'.guest.cpu.trans h.guest.cpu, h'.guest.decinfo.trans h.guest.decinfo,
      trans_of SamePmem h.guest.bus h'.guest.bus⟩, h'.diff.trans h.diff⟩
  debugger _ _ h := ⟨⟨rfl, rfl, h⟩, rfl⟩
  bus _ _ h := ⟨⟨rfl, rfl, h⟩, rfl⟩

section Observes

variable (E : Emulator R) (c : Command)

/-- Everything but the instruction and its comparison: the command loop, the watchpoints and the
devices. -/
theorem point_observes {p : Point} (hexec : ∀ n, p ≠ .execOnce n)
    (hdiff : ∀ n pc, p ≠ .difftest n pc) : Within Observes (p.run E c) := by
  have hstate : ∀ state, Within (@Observes R) (setState state) :=
    fun _ _ => .of_eq rfl rfl rfl rfl
  cases p with
  | prompt => exact command_within c
  | entry n => exact entry_within E c hstate n
  | loopTest n => exact Within.pure _
  | execOnce n => exact absurd rfl (hexec n)
  | difftest n pc => exact absurd rfl (hdiff n pc)
  | asmPrint n =>
      have hprint : Within (@Observes R) (onMachine Nemu.asmPrint) :=
        fun _ => .of_eq rfl rfl rfl rfl
      exact Within.get.bind fun w =>
        Within.ite (hprint.bind fun _ => Within.pure _) (Within.pure _)
  | check n =>
      refine Within.get.bind fun w => (onCheck_within _).bind fun fired => ?_
      exact Within.ite ((hstate _).bind fun _ => Within.pure _) (Within.pure _)
  | count n =>
      exact Within.bind (Within.modify fun _ => .of_eq rfl rfl rfl rfl) fun _ => Within.pure _
  | deviceUpdate n => exact (onDevices_within _).bind fun _ => Within.pure _
  | breakTest n => exact breakTest_within E c n
  | finish => exact finish_within E c hstate
  | exited => exact Within.pure _

end Observes

/-! ## The reference design -/

/-- `M` relates the machine to the states of the reference design that have its registers. -/
structure Emulator.Twin (E : Emulator R) (M : Machine → R → Prop) : Prop where
  getregs : ∀ {s : Machine} {r : R}, M s r → E.ref.getregs r = s.cpu
  guest : ∀ {s s' : Machine} {r : R}, SameInputs s s' → M s r → M s' r

/-- The step executes an instruction that returns. -/
structure Executes (a b : Config R) : Prop where
  point : ∃ n, a.point = .execOnce n
  returns : b.point ≠ .exited

/-- The reference design can follow the step: it executes what the emulator executes, and of an
instruction that asks to be skipped the registers are enough. -/
structure Followed (E : Emulator R) (M : Machine → R → Prop) (a b : Config R) : Prop where
  exec : Executes a b → b.world.skipRefCalls = a.world.skipRefCalls →
    M a.world.machine a.world.diff.ref → M b.world.machine (E.ref.exec a.world.diff.ref)
  copy : Executes a b → a.world.skipRefCalls < b.world.skipRefCalls →
    M a.world.machine a.world.diff.ref →
      M b.world.machine (E.ref.setregs b.world.machine.cpu a.world.diff.ref)

section Compare

variable {E : Emulator R} {w : World R} (oriPc nextPc : Word)

theorem difftestStep_outside (hw : w.Outside) :
    difftestStep E oriPc nextPc w =
      if w.isSkipRef then
        .ok ⟨⟩ { w with
          diff := { w.diff with
            ref := E.ref.setregs w.machine.cpu w.diff.ref, calls := w.diff.calls ++ [.setregs] }
          machine := { w.machine with bus := { w.machine.bus with isSkipRef := false } } }
      else
        checkregs E (E.ref.getregs (E.ref.exec w.diff.ref)) oriPc { w with
          diff := { w.diff with
            ref := E.ref.exec w.diff.ref, calls := w.diff.calls ++ [.exec] ++ [.getregs] } } := by
  rw [difftestStep, bind_ok (get_run w), if_neg (by rw [hw.isDetach]; exact Bool.false_ne_true),
    if_neg (Int.not_lt.2 hw.skipDutNrInstr)]
  unfold World.isSkipRef
  split <;> rfl

/-- The run state behind a comparison of equal registers. -/
def Emulator.verdict (E : Emulator R) (cpu : CPUState) (pc : Word) (state : NEMUState) :
    NEMUState :=
  if E.isaDifftestCheckregs cpu cpu pc then state
  else { state with state := .nemuAbort, haltPc := pc }

theorem checkregs_verdict (pc : Word) {ref : CPUState} (h : ref = w.machine.cpu) :
    checkregs E ref pc w =
      .ok ⟨⟩ { w with
        diff := { w.diff with calls := w.diff.calls ++ [.checkregs pc] }
        machine := { w.machine with
          nemuState := E.verdict w.machine.cpu pc w.machine.nemuState } } := by
  subst h
  change (if E.isaDifftestCheckregs w.machine.cpu w.machine.cpu pc then pure () else _ :
    OnWorld R Unit) _ = _
  rw [Emulator.verdict]
  cases E.isaDifftestCheckregs w.machine.cpu w.machine.cpu pc <;> rfl

end Compare

/-! ## Runs -/

section Lock

variable {E : Emulator R} {M : Machine → R → Prop}

/-- Behind an instruction the reference design is one instruction back. -/
def InStep (E : Emulator R) (M : Machine → R → Prop) (p : Point) (w : World R) : Prop :=
  match p with
  | .difftest _ _ =>
      if w.isSkipRef then M w.machine (E.ref.setregs w.machine.cpu w.diff.ref)
      else M w.machine (E.ref.exec w.diff.ref)
  | .exited => True
  | _ => M w.machine w.diff.ref

theorem InStep.of_matches {p : Point} {w : World R} (hp : ∀ n pc, p ≠ .difftest n pc)
    (h : M w.machine w.diff.ref) : InStep E M p w := by
  cases p with
  | difftest n pc => exact absurd rfl (hp n pc)
  | exited => trivial
  | _ => exact h

theorem InStep.matches {p : Point} {w : World R} (h : InStep E M p w)
    (hp : ∀ n pc, p ≠ .difftest n pc) (hexit : p ≠ .exited) : M w.machine w.diff.ref := by
  cases p with
  | difftest n pc => exact absurd rfl (hp n pc)
  | exited => exact absurd rfl hexit
  | _ => exact h

structure LockInv (E : Emulator R) (M : Machine → R → Prop) (a : Config R) : Prop where
  skip : SkipInv a
  closed : a.world.diff.skipDutNrInstr = 0
  inStep : InStep E M a.point a.world

/-- What `difftest_step` does at `pc` to two designs in step. -/
structure Matched (E : Emulator R) (M : Machine → R → Prop) (n : Nat) (pc : Word)
    (a b : Config R) : Prop where
  point : b.point = .asmPrint n
  getregs : E.ref.getregs b.world.diff.ref = a.world.machine.cpu
  nemuState : b.world.machine.nemuState =
    if a.world.isSkipRef then a.world.machine.nemuState
    else E.verdict a.world.machine.cpu pc a.world.machine.nemuState
  closed : b.world.diff.skipDutNrInstr = 0
  inStep : M b.world.machine b.world.diff.ref

/-- The registers compared are equal, and the two stay in step whatever the verdict is. -/
theorem next_lock_difftest (hdiff : E.diffTest = true) (htwin : E.Twin M) {a : Config R}
    (ha : LockInv E M a) {n : Nat} {pc : Word} (hp : a.point = .difftest n pc) (c : Command) :
    Matched E M n pc a (a.next E c) := by
  have hout : a.world.Outside := ⟨ha.skip.isDetach, Int.le_of_eq ha.closed⟩
  have hstep := difftestStep_outside (E := E) pc a.world.machine.cpu.pc hout
  have hlock := ha.inStep
  rw [hp, InStep] at hlock
  rw [next_compare hdiff hp]
  cases hflag : a.world.isSkipRef with
  | true =>
      rw [hflag, if_pos rfl] at hstep hlock
      have hsame : SameInputs a.world.machine
          { a.world.machine with bus := { a.world.machine.bus with isSkipRef := false } } :=
        ⟨rfl, rfl, ⟨rfl, rfl⟩⟩
      rw [hstep]
      refine ⟨rfl, htwin.getregs hlock, ?_, ha.closed, htwin.guest hsame hlock⟩
      rw [hflag]
      rfl
  | false =>
      rw [hflag, if_neg Bool.false_ne_true] at hstep hlock
      -- the registers of the reference design are those of the emulator
      have hrun := hstep.trans (checkregs_verdict (E := E) pc (htwin.getregs hlock))
      have hsame : SameInputs a.world.machine
          { a.world.machine with
            nemuState := E.verdict a.world.machine.cpu pc a.world.machine.nemuState } :=
        ⟨rfl, rfl, ⟨rfl, rfl⟩⟩
      rw [hrun]
      refine ⟨rfl, htwin.getregs hlock, ?_, ha.closed, htwin.guest hsame hlock⟩
      rw [hflag]
      rfl

/-- Behind an instruction the reference design is one instruction back, or has registers to take
over. -/
theorem next_lock_execOnce (hE : E.Lawful) (hquiet : E.Quiet) {a : Config R} (ha : LockInv E M a)
    {n : Nat} (hp : a.point = .execOnce n) {c : Command} (hreturns : (a.next E c).point ≠ .exited)
    (hfollowed : Followed E M a (a.next E c)) :
    InStep E M (.difftest n a.world.machine.cpu.pc) (a.next E c).world := by
  have hM : M a.world.machine a.world.diff.ref := by
    have hlock := ha.inStep
    rw [hp] at hlock
    exact hlock
  have hflag : a.world.isSkipRef = false := by
    have hclear := ha.skip.flag
    rw [hp] at hclear
    exact hclear
  have hdiff : (a.next E c).world.diff = a.world.diff :=
    next_sameDiff hquiet (fun m pc h => Point.noConfusion (hp.symm.trans h)) c
  have hasked : Asked a.world.machine.bus (a.next E c).world.machine.bus := by
    have hexecuted := execOnce_executed c hE n a.world
    rw [← hp, ← next_world] at hexecuted
    exact hexecuted.asked
  rw [InStep, hdiff]
  rcases hasked with ⟨hkept, hcalls⟩ | ⟨hset, hcalls⟩
  · have hclear : (a.next E c).world.isSkipRef = false := hkept.trans hflag
    rw [hclear, if_neg Bool.false_ne_true]
    exact hfollowed.exec ⟨⟨n, hp⟩, hreturns⟩ hcalls hM
  · have hskip : (a.next E c).world.isSkipRef = true := hset
    rw [hskip, if_pos rfl]
    exact hfollowed.copy ⟨⟨n, hp⟩, hreturns⟩ hcalls hM

/-- One statement keeps the two in step. -/
theorem next_lockInv (hE : E.Lawful) (hquiet : E.Quiet) (hdiff : E.diffTest = true)
    (htwin : E.Twin M) {a : Config R} (ha : LockInv E M a) {c : Command}
    (hgood : Discreet a (a.next E c)) (hfollowed : Followed E M a (a.next E c)) :
    LockInv E M (a.next E c) := by
  have hskip := next_skipInv c hE hdiff ha.skip hgood
  rcases point_cases a.point with ⟨n, pc, hp⟩ | hnot
  · have hmatched := next_lock_difftest hdiff htwin ha hp c
    refine ⟨hskip, hmatched.closed, ?_⟩
    rw [hmatched.point]
    exact hmatched.inStep
  have hdiff' := next_sameDiff hquiet hnot c
  refine ⟨hskip, (congrArg DiffTest.skipDutNrInstr hdiff').trans ha.closed, ?_⟩
  by_cases hexit : (a.next E c).point = .exited
  · rw [hexit]
    trivial
  have hM := ha.inStep.matches hnot (exited_next hexit)
  -- only an instruction takes the emulator further
  by_cases hexec : ∃ n, a.point = .execOnce n
  · rcases hexec with ⟨n, hp⟩
    rw [execOnce_point c hp hexit]
    exact next_lock_execOnce hE hquiet ha hp hexit hfollowed
  · rw [not_exists] at hexec
    have hobserves := point_observes E c hexec hnot a.world
    rw [← next_world] at hobserves
    have hflow := next_flow E c a
    refine .of_matches (fun n pc hp => ?_) ?_
    · rw [hp] at hflow
      generalize a.point = p at hexec hflow
      cases hflow
      exact hexec _ rfl
    · rw [hobserves.diff]
      exact htwin.guest hobserves.guest hM

/-- The steps of a run that the reference design can follow. -/
def FollowedStep (E : Emulator R) (M : Machine → R → Prop) (a b : Config R) : Prop :=
  Step E a b ∧ Discreet a b ∧ Followed E M a b

theorem Config.Attached.lockInv (hE : E.Lawful) (hquiet : E.Quiet) (hdiff : E.diffTest = true)
    (htwin : E.Twin M) {start a : Config R} (hstart : start.Attached)
    (hclosed : start.world.diff.skipDutNrInstr = 0)
    (hM : M start.world.machine start.world.diff.ref)
    (hrun : Relation.ReflTransGen (FollowedStep E M) start a) : LockInv E M a := by
  induction hrun with
  | refl =>
      refine ⟨hstart.skipInv hE hdiff .refl, hclosed, ?_⟩
      rw [hstart.point]
      exact hM
  | tail _ hstep ih =>
      rcases hstep with ⟨⟨c, rfl⟩, hgood, hfollowed⟩
      exact next_lockInv hE hquiet hdiff htwin ih hgood hfollowed

/-- In a run whose steps are all discreet, and followed by the reference design, whatever is typed
at the prompt: behind every comparison the reference design has the emulator's registers, and
`nemu_state` is what `isa_difftest_checkregs` makes of equal registers.  At the prompt the two
designs are in step again, even behind a failed comparison. -/
theorem difftest_inStep (hE : E.Lawful) (hquiet : E.Quiet) (hdiff : E.diffTest = true)
    (htwin : E.Twin M) {start a : Config R} (hstart : start.Attached)
    (hclosed : start.world.diff.skipDutNrInstr = 0)
    (hM : M start.world.machine start.world.diff.ref)
    (hrun : Relation.ReflTransGen (FollowedStep E M) start a) :
    (∀ n pc c, a.point = .difftest n pc → (a.next E c).point = .asmPrint n ∧
      E.ref.getregs (a.next E c).world.diff.ref = a.world.machine.cpu ∧
      (a.next E c).world.machine.nemuState =
        if a.world.isSkipRef then a.world.machine.nemuState
        else E.verdict a.world.machine.cpu pc a.world.machine.nemuState) ∧
    (a.point = .prompt → M a.world.machine a.world.diff.ref) := by
  have hinv := hstart.lockInv hE hquiet hdiff htwin hclosed hM hrun
  constructor
  · intro n pc c hp
    have hmatched := next_lock_difftest hdiff htwin hinv hp c
    exact ⟨hmatched.point, hmatched.getregs, hmatched.nemuState⟩
  · intro hp
    have hlock := hinv.inStep
    rw [hp] at hlock
    exact hlock

end Lock

/-! ## The emulator as its own reference design -/

/-- A machine that is about to execute on this processor. -/
def Processor.machine (p : Processor) : Machine :=
  { Machine.zero with cpu := p.cpu, bus := { Bus.zero with pmem := p.pmem } }

/-- A second emulator behind the interface of a reference design. -/
def Ref.processor : Ref Processor :=
  { getregs := fun p => p.cpu, setregs := fun cpu p => { p with cpu }
    exec := fun p => (final (execOnce p.machine)).processor }

theorem Ref.processor_exec {p q : Processor} (h : p.Instructs q) : Ref.processor.exec p = q := by
  rcases h.execOnce (s := p.machine) ⟨rfl, rfl, rfl⟩ ⟨rfl, rfl, rfl⟩ with ⟨npc, s, hrun, hs, -, -⟩
  change (final (execOnce p.machine)).processor = q
  rw [hrun]
  exact hs

/-- Both have the same registers and memory. -/
def SameProcessor (s : Machine) (p : Processor) : Prop := s.processor = p

theorem x86_twin (diffTest : Bool) (deviceUpdate : OnIO Unit) :
    (Emulator.x86 diffTest .processor deviceUpdate).Twin SameProcessor where
  getregs h := (congrArg Processor.cpu h).symm
  guest hsame h := by
    refine Eq.trans ?_ h
    rw [Machine.processor, Machine.processor, hsame.cpu, hsame.bus.pmem]

theorem followed_of_point {E : Emulator R} {M : Machine → R → Prop} {a b : Config R}
    (h : ∀ n, a.point ≠ .execOnce n) : Followed E M a b :=
  ⟨fun hexec => absurd hexec.point.choose_spec (h _),
    fun hexec => absurd hexec.point.choose_spec (h _)⟩

/-- A `mov` that lies in memory is executed by both. -/
theorem Processor.Instructs.followed {diffTest : Bool} {deviceUpdate : OnIO Unit} (n : Nat)
    {w : World Processor} {p : Processor} (hs : w.machine.Boundary) (htrace : w.machine.trace.Cleared)
    (h : w.machine.processor.Instructs p) :
    let E := Emulator.x86 diffTest .processor deviceUpdate
    ∃ s, FollowedStep E SameProcessor ⟨.execOnce n, w⟩
        ⟨.difftest n w.machine.cpu.pc, { w with machine := s }⟩ ∧
      s.processor = p ∧ s.nemuState = w.machine.nemuState ∧ s.bus.isSkipRef = w.isSkipRef := by
  intro E
  rcases h.execOnce hs htrace with ⟨npc, s, hrun, hp, hstate, hbus⟩
  have honce : E.execOnce w = .ok npc { w with machine := s } := by
    change onMachine Nemu.execOnce w = _
    simp only [onMachine, hrun]
  have hstep : Step E ⟨.execOnce n, w⟩
      ⟨.difftest n w.machine.cpu.pc, { w with machine := s }⟩ := by
    refine step_of_run (c := .other) ?_
    rw [Point.run, bind_ok (get_run w)]
    exact bind_ok honce
  have hcalls : s.bus.skipRefCalls = w.machine.bus.skipRefCalls := by rw [hbus]
  refine ⟨s, ⟨hstep, ⟨?_, fun _ _ => hcalls⟩, ⟨?_, ?_⟩⟩, hp, hstate, by rw [hbus]; rfl⟩
  · rintro (hprompt | ⟨m, hcheck⟩)
    · cases hprompt
    · cases hcheck
  · intro _ _ hsame
    -- the second emulator executes the same instruction
    have hexec : Ref.processor.exec w.diff.ref = p := by
      rw [← show w.machine.processor = w.diff.ref from hsame]
      exact Ref.processor_exec h
    exact hp.trans hexec.symm
  · intro _ hlt
    exact absurd hcalls (Nat.ne_of_gt hlt)

/-- Both execute `movl $1,0x200`, and the registers compared are equal; the stub answers with
`NEMU_ABORT`. -/
theorem difftest_inStep_store :
    let E : Emulator Processor := .x86 true .processor (pure ())
    let start : World Processor :=
      { World.zero startWorld.machine.processor with machine := startWorld.machine }
    ∃ a, Relation.ReflTransGen (FollowedStep E SameProcessor) ⟨.prompt, start⟩ a ∧
      a.point = .difftest 1 0x100000 ∧
      start.machine.processor.Instructs a.world.machine.processor ∧
      E.ref.getregs (a.next E .other).world.diff.ref = a.world.machine.cpu ∧
      (a.next E .other).world.machine.nemuState = ⟨.nemuAbort, 0x100000, 0⟩ := by
  intro E start
  have hquiet : ∀ {p q : Point} {w w' : World Processor}, (∀ n, p ≠ .execOnce n) →
      Step E ⟨p, w⟩ ⟨q, w'⟩ → w'.skipRefCalls = w.skipRefCalls →
      FollowedStep E SameProcessor ⟨p, w⟩ ⟨q, w'⟩ := fun hp hstep h =>
    ⟨hstep, ⟨fun _ => h, fun _ _ => h⟩, followed_of_point hp⟩
  rcases startWorld_stores with ⟨p, -, -, hinstr, -⟩
  rcases Processor.Instructs.followed (w := start.running) 1 ⟨rfl, rfl, rfl⟩ ⟨rfl, rfl, rfl⟩ hinstr with
    ⟨s, hexec, rfl, hstate, hskip⟩
  have hrun : Relation.ReflTransGen (FollowedStep E SameProcessor) ⟨.prompt, start⟩
      ⟨.difftest 1 0x100000, { start.running with machine := s }⟩ :=
    .tail (.tail (.tail (.single
      (hquiet (fun _ h => Point.noConfusion h) (step_command 1 _) rfl))
      (hquiet (fun _ h => Point.noConfusion h) (step_entry 1 rfl) rfl))
      (hquiet (fun _ h => Point.noConfusion h) (step_loopTest Nat.one_pos _) rfl)) hexec
  have hsame : SameProcessor start.machine start.diff.ref := rfl
  have hsteps := difftest_inStep (x86_lawful _ _ _) (x86_quiet _ _ _) rfl (x86_twin _ _)
    ⟨rfl, rfl, rfl⟩ rfl hsame hrun
  rcases hsteps.1 1 0x100000 .other rfl with ⟨-, hregs, hverdict⟩
  have hnot : ¬ (s.bus.isSkipRef = true) := by
    rw [hskip]
    exact Bool.false_ne_true
  refine ⟨_, hrun, rfl, hinstr, hregs, (hverdict.trans (if_neg hnot)).trans ?_⟩
  change { s.nemuState with state := .nemuAbort, haltPc := 0x100000 } = _
  rw [hstate]
  rfl

end Nemu
