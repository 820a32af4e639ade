import Nemu.Monitor.WorldRules
import Nemu.X86.HelperRules

/-!
# Skipping over runs

`difftest_skip_ref` sets a flag that stays set until a `difftest_step` outside a `skip_dut` window
clears it.  Device maps are looked up by the debugger as well as by the guest, so that the flag is
right for an instruction only if nobody else has set it since the last one.
-/

namespace Nemu

open StateRules

variable {R : Type}

/-! ## Calls of difftest_skip_ref -/

/-- Nothing has happened to the flag, or `difftest_skip_ref` has been called. -/
def Asked (bus bus' : Bus) : Prop :=
  (bus'.isSkipRef = bus.isSkipRef ∧ bus'.skipRefCalls = bus.skipRefCalls) ∨
    (bus'.isSkipRef = true ∧ bus.skipRefCalls < bus'.skipRefCalls)

theorem Asked.trans {bus bus' bus'' : Bus} (h : Asked bus bus') (h' : Asked bus' bus'') :
    Asked bus bus'' := by
  rcases h with ⟨hflag, hcalls⟩ | ⟨hflag, hcalls⟩ <;>
    rcases h' with ⟨hflag', hcalls'⟩ | ⟨hflag', hcalls'⟩
  · -- a call on either side is a call in the whole
    exact .inl ⟨hflag'.trans hflag, hcalls'.trans hcalls⟩
  · exact .inr ⟨hflag', hcalls ▸ hcalls'⟩
  · exact .inr ⟨hflag'.trans hflag, hcalls'.symm ▸ hcalls⟩
  · exact .inr ⟨hflag', Nat.lt_trans hcalls hcalls'⟩

instance : BusRel Asked where
  refl _ := .inl ⟨rfl, rfl⟩
  trans _ _ _ := Asked.trans
  pmem _ _ := .inl ⟨rfl, rfl⟩
  io _ _ := .inl ⟨rfl, rfl⟩
  skipRef _ := .inr ⟨rfl, Nat.lt_succ_self _⟩

theorem Asked.flag_of_calls {bus bus' : Bus} (h : Asked bus bus')
    (hcalls : bus'.skipRefCalls = bus.skipRefCalls) : bus'.isSkipRef = bus.isSkipRef := by
  rcases h with ⟨hflag, -⟩ | ⟨-, hlt⟩
  · exact hflag
  · exact absurd hcalls (Nat.ne_of_gt hlt)

def World.isSkipRef (w : World R) : Bool := w.machine.bus.isSkipRef

def World.skipRefCalls (w : World R) : Nat := w.machine.bus.skipRefCalls

/-- What does not work on `diff-test.c` except through `difftest_skip_ref`. -/
structure Bystander (w w' : World R) : Prop where
  asked : Asked w.machine.bus w'.machine.bus
  diff : w'.diff = w.diff

instance : WorldRel Asked (@Bystander R) where
  refl w := ⟨refl_of Asked w.machine.bus, rfl⟩
  trans _ _ _ h h' := ⟨h.asked.trans h'.asked, h'.diff.trans h.diff⟩
  debugger _ _ h := ⟨h, rfl⟩
  bus _ _ h := ⟨h, rfl⟩

/-! ## What an instruction does -/

/-- An instruction calls `difftest_skip_ref` and `difftest_skip_dut` in any order, and does
anything else in between. -/
inductive InstrStep (E : Emulator R) : World R → World R → Prop
  | other {w w' : World R} (hflag : w'.isSkipRef = w.isSkipRef)
      (hcalls : w'.skipRefCalls = w.skipRefCalls) (hdiff : w'.diff = w.diff) : InstrStep E w w'
  | skipRef (w : World R) :
      InstrStep E w { w with machine := { w.machine with bus := w.machine.bus.skipRef } }
  | skipDut (nrRef nrDut : Int) (w : World R) :
      InstrStep E w (final (difftestSkipDut E nrRef nrDut w))

/-- The instructions of the emulator reach `diff-test.c` through its two functions. -/
def Emulator.Lawful (E : Emulator R) : Prop :=
  Within (Relation.ReflTransGen (InstrStep E)) E.execOnce

/-- What holds across an instruction. -/
structure Executed (w w' : World R) : Prop where
  asked : Asked w.machine.bus w'.machine.bus
  isDetach : w'.diff.isDetach = w.diff.isDetach

instance : IsPreorder (World R) Executed where
  refl w := ⟨refl_of Asked w.machine.bus, rfl⟩
  trans _ _ _ h h' := ⟨h.asked.trans h'.asked, h'.isDetach.trans h.isDetach⟩

theorem refDifftestExec_executed (E : Emulator R) : Within Executed (refDifftestExec E) :=
  fun w => ⟨refl_of Asked w.machine.bus, rfl⟩

theorem difftestSkipDut_executed (E : Emulator R) (nrRef nrDut : Int) :
    Within Executed (difftestSkipDut E nrRef nrDut) := by
  have hloop : ∀ l : List Nat, Within Executed (l.forM fun _ => refDifftestExec E) := by
    intro l
    induction l with
    | nil => exact Within.pure _
    | cons i l ih => exact (refDifftestExec_executed E).bind fun _ => ih
  have hnr : Within (@Executed R)
      (modifyDiff fun d => { d with skipDutNrInstr := d.skipDutNrInstr + nrDut }) :=
    fun w => ⟨refl_of Asked w.machine.bus, rfl⟩
  exact hnr.bind fun _ => hloop _

theorem InstrStep.executed {E : Emulator R} {w w' : World R} (h : InstrStep E w w') :
    Executed w w' := by
  cases h with
  | other hflag hcalls hdiff => exact ⟨.inl ⟨hflag, hcalls⟩, by rw [hdiff]⟩
  | skipRef w => exact ⟨.inr ⟨rfl, Nat.lt_succ_self _⟩, rfl⟩
  | skipDut nrRef nrDut w => exact difftestSkipDut_executed E nrRef nrDut w

theorem Emulator.Lawful.executed {E : Emulator R} (hE : E.Lawful) : Within Executed E.execOnce := by
  intro w
  have hsteps := hE w
  generalize final (E.execOnce w) = w' at hsteps
  induction hsteps with
  -- each of the two functions, and everything in between, keeps what `Executed` says
  | refl => exact refl_of Executed w
  | tail _ hstep ih => exact trans_of Executed ih hstep.executed

/-! ## The x86 instructions -/

/-- Any number of calls of `difftest_skip_ref`. -/
theorem steps_skipRef (E : Emulator R) (k : Nat) (w : World R) :
    ∃ w', Relation.ReflTransGen (InstrStep E) w w' ∧ w'.isSkipRef = true ∧
      w'.skipRefCalls = w.skipRefCalls + k + 1 ∧ w'.diff = w.diff := by
  induction k with
  | zero => exact ⟨_, .single (.skipRef w), rfl, rfl, rfl⟩
  | succ k ih =>
      rcases ih with ⟨w', hsteps, -, hcalls, hdiff⟩
      refine ⟨_, hsteps.tail (.skipRef w'), rfl, ?_, hdiff⟩
      change w'.skipRefCalls + 1 = _
      rw [hcalls, Nat.add_assoc w.skipRefCalls k 1]

theorem Bystander.steps {w w' : World R} (h : Bystander w w') (E : Emulator R) :
    Relation.ReflTransGen (InstrStep E) w w' := by
  rcases h with ⟨⟨hflag, hcalls⟩ | ⟨hflag, hcalls⟩, hdiff⟩
  · exact .single (.other hflag hcalls hdiff)
  · -- the calls first, then everything else at once
    rcases Nat.exists_eq_add_of_lt hcalls with ⟨k, hk⟩
    rcases steps_skipRef E k w with ⟨w₁, hsteps, hflag₁, hcalls₁, hdiff₁⟩
    exact hsteps.tail (.other (hflag.trans hflag₁.symm) (hk.trans hcalls₁.symm)
      (hdiff.trans hdiff₁.symm))

def AskedMachine (s s' : Machine) : Prop := Asked s.bus s'.bus

theorem execOnce_asked : Within AskedMachine execOnce := fun s => (execOnce_keepsOnce s).bus

theorem x86_lawful (diffTest : Bool) (ref : Ref R) (deviceUpdate : OnIO Unit) :
    (Emulator.x86 diffTest ref deviceUpdate).Lawful := by
  intro w
  refine Bystander.steps ?_ _
  change Bystander w (final (onMachine execOnce w))
  rw [final_onMachine]
  exact ⟨execOnce_asked w.machine, rfl⟩

/-! ## difftest_step outside a window -/

/-- The registers have been copied to the reference design, which has executed nothing. -/
structure Copied (E : Emulator R) (w w' : World R) : Prop where
  calls : w'.diff.calls = w.diff.calls ++ [.setregs]
  ref : w'.diff.ref = E.ref.setregs w.machine.cpu w.diff.ref
  nemuState : w'.machine.nemuState = w.machine.nemuState

/-- The reference design has executed one instruction, and the registers have been compared. -/
structure Compared (E : Emulator R) (oriPc : Word) (w w' : World R) : Prop where
  calls : w'.diff.calls = w.diff.calls ++ [.exec, .getregs, .checkregs oriPc]
  ref : w'.diff.ref = E.ref.exec w.diff.ref
  nemuState : w'.machine.nemuState =
    if E.isaDifftestCheckregs (E.ref.getregs (E.ref.exec w.diff.ref)) w.machine.cpu oriPc then
      w.machine.nemuState
    else { w.machine.nemuState with state := .nemuAbort, haltPc := oriPc }

/-- `difftest_step` gets past its first two tests. -/
structure World.Outside (w : World R) : Prop where
  isDetach : w.diff.isDetach = false
  skipDutNrInstr : w.diff.skipDutNrInstr ≤ 0

section DifftestStep

variable {E : Emulator R} {w : World R} (oriPc nextPc : Word)

theorem difftestStep_copy (hw : w.Outside) (hflag : w.isSkipRef = true) :
    Ensures (difftestStep E oriPc nextPc) w fun _ w' => Copied E w w' ∧ w'.isSkipRef = false ∧
      w'.diff.isDetach = w.diff.isDetach := by
  have hflag' : w.machine.bus.isSkipRef = true := hflag
  have hrun : difftestStep E oriPc nextPc w =
      (refDifftestSetregs E w.machine.cpu >>= fun _ => setSkipRef false) w := by
    rw [difftestStep, bind_ok (get_run w), if_neg (by rw [hw.isDetach]; simp),
      if_neg (Int.not_lt.2 hw.skipDutNrInstr), if_pos hflag']
  exact ⟨_, _, hrun, ⟨rfl, rfl, rfl⟩, rfl, rfl⟩

theorem checkregs_run (ref : CPUState) (pc : Word) (w : World R) :
    Ensures (checkregs E ref pc) w fun _ w' =>
      w'.diff = { w.diff with calls := w.diff.calls ++ [.checkregs pc] } ∧
      w'.machine.bus = w.machine.bus ∧
      w'.machine.nemuState =
        if E.isaDifftestCheckregs ref w.machine.cpu pc then w.machine.nemuState
        else { w.machine.nemuState with state := .nemuAbort, haltPc := pc } := by
  let w₁ := final (recordCall (.checkregs pc) w)
  -- a mismatch aborts the program and changes nothing else
  cases hcheck : E.isaDifftestCheckregs ref w.machine.cpu pc with
  | true =>
      have hrun : checkregs E ref pc w = .ok ⟨⟩ w₁ := by
        change (if E.isaDifftestCheckregs ref w.machine.cpu pc then pure () else _ :
          OnWorld R Unit) w₁ = _
        rw [if_pos hcheck]
        rfl
      exact ⟨_, _, hrun, rfl, rfl, rfl⟩
  | false =>
      have hrun : checkregs E ref pc w =
          .ok ⟨⟩ { w₁ with
            machine := { w.machine with
              nemuState := { w.machine.nemuState with state := .nemuAbort, haltPc := pc } } } := by
        change (if E.isaDifftestCheckregs ref w.machine.cpu pc then pure () else _ :
          OnWorld R Unit) w₁ = _
        rw [if_neg (by rw [hcheck]; simp)]
        rfl
      exact ⟨_, _, hrun, rfl, rfl, rfl⟩

theorem difftestStep_compare (hw : w.Outside) (hflag : w.isSkipRef = false) :
    Ensures (difftestStep E oriPc nextPc) w fun _ w' => Compared E oriPc w w' ∧
      w'.isSkipRef = false ∧ w'.diff.isDetach = w.diff.isDetach := by
  have hflag' : w.machine.bus.isSkipRef = false := hflag
  -- the reference design executes one instruction, and its registers are fetched
  let w₁ := final (refDifftestExec E w)
  let w₂ := final (refDifftestGetregs E w₁)
  have hrun : difftestStep E oriPc nextPc w =
      checkregs E (E.ref.getregs (E.ref.exec w.diff.ref)) oriPc w₂ := by
    rw [difftestStep, bind_ok (get_run w), if_neg (by rw [hw.isDetach]; simp),
      if_neg (Int.not_lt.2 hw.skipDutNrInstr), if_neg (by rw [hflag']; simp)]
    rfl
  rcases checkregs_run (E := E) (E.ref.getregs (E.ref.exec w.diff.ref)) oriPc w₂ with
    ⟨_, w', hcheck, hdiff, hbus, hstate⟩
  refine ⟨_, w', hrun.trans hcheck, ⟨?_, ?_, hstate⟩, ?_, ?_⟩
  · rw [hdiff]
    change ((w.diff.calls ++ [.exec]) ++ [.getregs]) ++ [.checkregs oriPc] = _
    simp only [List.append_assoc, List.cons_append, List.nil_append]
  · rw [hdiff]
    rfl
  · exact (congrArg Bus.isSkipRef hbus).trans hflag
  · rw [hdiff]
    rfl

end DifftestStep

/-! ## Steps -/

/-- What is left alone by everything but an instruction, the debugger and `difftest_step`. -/
structure SameFlag (w w' : World R) : Prop where
  isSkipRef : w'.isSkipRef = w.isSkipRef
  isDetach : w'.diff.isDetach = w.diff.isDetach

instance : IsPreorder (World R) SameFlag where
  refl _ := ⟨rfl, rfl⟩
  trans _ _ _ h h' := ⟨h'.isSkipRef.trans h.isSkipRef, h'.isDetach.trans h.isDetach⟩

theorem onDevices_sameFlag (x : OnIO Unit) : Within (@SameFlag R) (onDevices x) := by
  intro w
  rw [final_onDevices]
  exact ⟨rfl, rfl⟩

theorem catchUp_sameFlag (E : Emulator R) (nextPc : Word) : Within SameFlag (catchUp E nextPc) := by
  have hrecord : ∀ c, Within (@SameFlag R) (recordCall c) := fun c _ => ⟨rfl, rfl⟩
  have hnr : ∀ f : Int → Int, Within (@SameFlag R)
      (modifyDiff fun d => { d with skipDutNrInstr := f d.skipDutNrInstr }) :=
    fun f _ => ⟨rfl, rfl⟩
  have hcheck : ∀ ref pc, Within SameFlag (checkregs E ref pc) := by
    intro ref pc w
    rcases checkregs_run (E := E) ref pc w with ⟨_, w', hrun, hdiff, hbus, -⟩
    rw [hrun]
    exact ⟨congrArg Bus.isSkipRef hbus, by rw [final_ok, hdiff]⟩
  have hget : Within SameFlag (refDifftestGetregs E) :=
    (hrecord _).bind fun _ => Within.get.bind fun _ => Within.pure _
  -- either the reference has caught up, or it has to within the window
  refine hget.bind fun refR => Within.ite ?_ ?_
  · exact (hcheck _ _).bind fun _ => hnr fun _ => 0
  · exact (hnr (· - 1)).bind fun _ => Within.get.bind fun w => cAssert_within _

theorem setState_sameFlag (state : RunState) : Within (@SameFlag R) (setState state) :=
  fun _ => ⟨rfl, rfl⟩

section Run

variable {E : Emulator R} (c : Command)

/-- `difftest_step` with the flag clear inside a window leaves it clear. -/
theorem difftestStep_flag {w : World R} (oriPc nextPc : Word) (hdetach : w.diff.isDetach = false)
    (hwindow : 0 < w.diff.skipDutNrInstr → w.isSkipRef = false) :
    (final (difftestStep E oriPc nextPc w)).isSkipRef = false ∧
      (final (difftestStep E oriPc nextPc w)).diff.isDetach = false := by
  -- inside a window the flag is not even looked at, outside it is cleared
  by_cases hpos : 0 < w.diff.skipDutNrInstr
  · have hrun : difftestStep E oriPc nextPc w = catchUp E nextPc w := by
      rw [difftestStep, bind_ok (get_run w), if_neg (by rw [hdetach]; simp), if_pos hpos]
    have hsame := catchUp_sameFlag E nextPc w
    rw [hrun]
    exact ⟨hsame.isSkipRef.trans (hwindow hpos), hsame.isDetach.trans hdetach⟩
  · have hout : w.Outside := ⟨hdetach, Int.not_lt.1 hpos⟩
    cases hflag : w.isSkipRef with
    | true =>
        rcases difftestStep_copy (E := E) oriPc nextPc hout hflag with ⟨_, w', hrun, -, hf, hd⟩
        rw [hrun]
        exact ⟨hf, hd.trans hdetach⟩
    | false =>
        rcases difftestStep_compare (E := E) oriPc nextPc hout hflag with ⟨_, w', hrun, -, hf, hd⟩
        rw [hrun]
        exact ⟨hf, hd.trans hdetach⟩

/-- The statements of `cpu_exec` that neither read guest memory nor compare. -/
theorem point_sameFlag {p : Point} (hprompt : p ≠ .prompt) (hexec : ∀ n, p ≠ .execOnce n)
    (hdiff : ∀ n pc, p ≠ .difftest n pc) (hcheck : ∀ n, p ≠ .check n) :
    Within SameFlag (p.run E c) := by
  cases p with
  | prompt => exact absurd rfl hprompt
  | entry n => exact entry_within E c setState_sameFlag n
  | loopTest n => exact Within.pure _
  | execOnce n => exact absurd rfl (hexec n)
  | difftest n pc => exact absurd rfl (hdiff n pc)
  | asmPrint n =>
      refine Within.get.bind fun w => ?_
      have hprint : Within (@SameFlag R) (onMachine Nemu.asmPrint) := fun _ => ⟨rfl, rfl⟩
      exact Within.ite (hprint.bind fun _ => Within.pure _) (Within.pure _)
  | check n => exact absurd rfl (hcheck n)
  | count n => exact Within.bind (Within.modify fun _ => ⟨rfl, rfl⟩) fun _ => Within.pure _
  | deviceUpdate n => exact (onDevices_sameFlag _).bind fun _ => Within.pure _
  | breakTest n => exact breakTest_within E c n
  | finish => exact finish_within E c setState_sameFlag
  | exited => exact Within.pure _

/-- The command loop and the watchpoint check. -/
theorem monitor_bystander {p : Point} (h : p = .prompt ∨ ∃ n, p = .check n) :
    Within Bystander (p.run E c) := by
  rcases h with rfl | ⟨n, rfl⟩
  · exact command_within c
  · refine Within.get.bind fun w => (onCheck_within _).bind fun fired => ?_
    have hstop : Within (@Bystander R) (setState .nemuStop) := fun w => ⟨refl_of Asked _, rfl⟩
    exact Within.ite (hstop.bind fun _ => Within.pure _) (Within.pure _)

theorem execOnce_executed (hE : E.Lawful) (n : Nat) :
    Within Executed (Point.run E c (.execOnce n)) :=
  Within.get.bind fun _ => hE.executed.bind fun _ => Within.pure _

/-! ## Runs -/

/-- The condition on a step: the monitor reads no device, and no instruction whose comparison
falls into a window asks to be skipped. -/
structure Discreet (a b : Config R) : Prop where
  monitor : (a.point = .prompt ∨ ∃ n, a.point = .check n) →
    b.world.skipRefCalls = a.world.skipRefCalls
  window : (∃ n, a.point = .execOnce n) → 0 < b.world.diff.skipDutNrInstr →
    b.world.skipRefCalls = a.world.skipRefCalls

/-- The flag is set between an instruction and its comparison only. -/
def FlagClear (p : Point) (w : World R) : Prop :=
  match p with
  | .difftest _ _ => 0 < w.diff.skipDutNrInstr → w.isSkipRef = false
  | .exited => True
  | _ => w.isSkipRef = false

theorem FlagClear.of_eq {p : Point} {w : World R} (h : w.isSkipRef = false) : FlagClear p w := by
  cases p with
  | difftest n pc => exact fun _ => h
  | exited => exact trivial
  | _ => exact h

structure SkipInv (a : Config R) : Prop where
  isDetach : a.world.diff.isDetach = false
  flag : FlagClear a.point a.world

theorem next_skipInv_execOnce (hE : E.Lawful) {a : Config R} {n : Nat} (ha : SkipInv a)
    (hp : a.point = .execOnce n) (hgood : Discreet a (a.next E c)) : SkipInv (a.next E c) := by
  have hexecuted := execOnce_executed c hE n a.world
  rw [← hp, ← next_world] at hexecuted
  refine ⟨hexecuted.isDetach.trans ha.isDetach, ?_⟩
  have hflag := ha.flag
  rw [hp] at hflag
  have hflow := next_flow E c a
  -- the condition on the step, for the case that the comparison falls into a window
  have hwindow := hgood.window ⟨n, hp⟩
  generalize a.next E c = b at hflow hexecuted hwindow
  rw [hp] at hflow
  rcases b with ⟨q, w⟩
  cases hflow with
  | compare => exact fun hpos => (hexecuted.asked.flag_of_calls (hwindow hpos)).trans hflag
  | exit => exact trivial

/-- One statement keeps the invariant. -/
theorem next_skipInv (hE : E.Lawful) (hdiff : E.diffTest = true) {a : Config R} (ha : SkipInv a)
    (hgood : Discreet a (a.next E c)) : SkipInv (a.next E c) := by
  rcases a with ⟨p, w⟩
  by_cases hexec : ∃ n, p = .execOnce n
  · rcases hexec with ⟨n, rfl⟩
    exact next_skipInv_execOnce c hE ha rfl hgood
  by_cases hexit : p = .exited
  · subst hexit
    exact ha
  -- everywhere else the flag is clear behind the statement
  rw [not_exists] at hexec
  have hworld := next_world E c ⟨p, w⟩
  -- at every point but the one behind an instruction the flag has to be clear
  suffices h : (Config.next E c ⟨p, w⟩).world.isSkipRef = false ∧
      (Config.next E c ⟨p, w⟩).world.diff.isDetach = false from ⟨h.2, FlagClear.of_eq h.1⟩
  -- the debugger may read memory, and the condition says that it meets no device
  by_cases hmonitor : p = .prompt ∨ ∃ n, p = .check n
  · have hby := monitor_bystander (E := E) c hmonitor w
    have hflag := ha.flag
    rw [← hworld] at hby
    have hcalls := hby.asked.flag_of_calls (hgood.monitor hmonitor)
    rcases hmonitor with rfl | ⟨n, rfl⟩ <;>
      exact ⟨hcalls.trans hflag, (congrArg DiffTest.isDetach hby.diff).trans ha.isDetach⟩
  -- `difftest_step` clears the flag itself
  by_cases hcompare : ∃ n pc, p = .difftest n pc
  · rcases hcompare with ⟨n, pc, rfl⟩
    have hflag := difftestStep_flag (E := E) pc w.machine.cpu.pc ha.isDetach ha.flag
    have hfinal : final (Point.run E c (.difftest n pc) w) =
        final (difftestStep E pc w.machine.cpu.pc w) := by
      rw [Point.run, bind_ok (get_run w), if_pos hdiff]
      exact final_bind_pure _ _ w
    rw [hworld, hfinal]
    exact hflag
  · rw [not_or] at hmonitor
    have hsame := point_sameFlag (E := E) c hmonitor.1 hexec (fun n pc h => hcompare ⟨n, pc, h⟩)
      (fun n h => hmonitor.2 ⟨n, h⟩) w
    rw [← hworld] at hsame
    have hflag : w.isSkipRef = false := by
      have hclear := ha.flag
      cases p with
      | difftest n pc => exact absurd ⟨n, pc, rfl⟩ hcompare
      | exited => exact absurd rfl hexit
      | _ => exact hclear
    exact ⟨hsame.isSkipRef.trans hflag, hsame.isDetach.trans ha.isDetach⟩

theorem execOnce_point {a : Config R} {n : Nat} (hp : a.point = .execOnce n)
    (hreturns : (a.next E c).point ≠ .exited) :
    (a.next E c).point = .difftest n a.world.machine.cpu.pc := by
  rcases a with ⟨p, w⟩
  dsimp only at hp
  subst hp
  unfold Config.next at hreturns ⊢
  dsimp only at hreturns ⊢
  cases hrun : Point.run E c (.execOnce n) w with
  | ok q w' =>
      rw [Point.run, bind_ok (get_run w)] at hrun
      exact eq_of_bind_pure hrun
  | error e w' =>
      rw [hrun] at hreturns
      exact absurd rfl hreturns

/-- `difftest_step` behind an instruction that returned, outside a window. -/
theorem next_difftest (hdiff : E.diffTest = true) {b : Config R} {n : Nat} {pc : Word}
    (hp : b.point = .difftest n pc) (hout : b.world.Outside) :
    (b.world.isSkipRef = true → Copied E b.world (b.next E c).world) ∧
      (b.world.isSkipRef = false → Compared E pc b.world (b.next E c).world) := by
  have hworld : ∀ {Q : World R → Prop},
      Ensures (difftestStep E pc b.world.machine.cpu.pc) b.world (fun _ w' => Q w') →
      Q (b.next E c).world := by
    rintro Q ⟨u, w', hrun, hQ⟩
    rw [next_world, hp, Point.run, bind_ok (get_run _), if_pos hdiff, bind_ok hrun]
    exact hQ
  constructor
  · intro hflag
    exact hworld ((difftestStep_copy pc _ hout hflag).mono fun _ _ h => h.1)
  · intro hflag
    exact hworld ((difftestStep_compare pc _ hout hflag).mono fun _ _ h => h.1)

/-- The configuration in which the command loop starts. -/
structure Config.Attached (a : Config R) : Prop where
  point : a.point = .prompt
  isSkipRef : a.world.isSkipRef = false
  isDetach : a.world.diff.isDetach = false

theorem Config.Attached.skipInv (hE : E.Lawful) (hdiff : E.diffTest = true) {start a : Config R}
    (hstart : start.Attached)
    (hrun : Relation.ReflTransGen (fun a b => Step E a b ∧ Discreet a b) start a) : SkipInv a := by
  induction hrun with
  | refl =>
      refine ⟨hstart.isDetach, ?_⟩
      rw [hstart.point]
      exact hstart.isSkipRef
  | tail _ hstep ih =>
      rcases hstep with ⟨⟨c, rfl⟩, hgood⟩
      exact next_skipInv c hE hdiff ih hgood

/-- In a run whose steps are all discreet, an instruction outside a window is skipped if it asked
for it, and compared otherwise. -/
theorem difftest_skips_asked (hE : E.Lawful) (hdiff : E.diffTest = true) {start a : Config R}
    (hstart : start.Attached)
    (hrun : Relation.ReflTransGen (fun a b => Step E a b ∧ Discreet a b) start a) {n : Nat}
    (hp : a.point = .execOnce n) (hreturns : (a.next E c).point ≠ .exited)
    (hout : (a.next E c).world.diff.skipDutNrInstr ≤ 0) (c' : Command) :
    (a.world.skipRefCalls < (a.next E c).world.skipRefCalls →
      Copied E (a.next E c).world ((a.next E c).next E c').world) ∧
    ((a.next E c).world.skipRefCalls = a.world.skipRefCalls →
      Compared E a.world.machine.cpu.pc (a.next E c).world ((a.next E c).next E c').world) := by
  have hinv := hstart.skipInv hE hdiff hrun
  -- so that the flag behind the instruction is its own
  have hflag : a.world.isSkipRef = false := by
    have hclear := hinv.flag
    rw [hp] at hclear
    exact hclear
  have hexecuted := execOnce_executed c hE n a.world
  rw [← hp, ← next_world] at hexecuted
  have hstep := next_difftest c' hdiff (execOnce_point c hp hreturns)
    ⟨hexecuted.isDetach.trans hinv.isDetach, hout⟩
  refine ⟨fun hlt => hstep.1 ?_, fun heq => hstep.2 ?_⟩
  · rcases hexecuted.asked with ⟨-, hcalls⟩ | ⟨hset, -⟩
    · exact absurd hcalls (Nat.ne_of_gt hlt)
    · exact hset
  · exact (hexecuted.asked.flag_of_calls heq).trans hflag

end Run

/-- The opcode at address 0, with zeros behind it. -/
def opcodeWorld (opcode : Byte) : World Unit :=
  { World.zero () with
    machine := { Machine.zero with
      bus := { Bus.zero with pmem := fun i => if i = 0 then opcode else 0 } } }

/-- `nemu_trap` asks to be skipped, and `mov $0x0, %eax` does not. -/
theorem difftest_skips_asked_opcodes :
    let E : Emulator Unit := .x86 true .idle (pure ())
    let a := fun opcode => Config.next E .other ⟨.execOnce 1, (opcodeWorld opcode).running⟩
    Copied E (a 0xd6).world ((a 0xd6).next E .other).world ∧
      Compared E 0 (a 0xb8).world ((a 0xb8).next E .other).world := by
  intro E a
  have hquiet : ∀ {p q : Point} {w w' : World Unit}, w'.skipRefCalls = w.skipRefCalls →
      Discreet ⟨p, w⟩ ⟨q, w'⟩ := fun h => ⟨fun _ => h, fun _ _ => h⟩
  have hrun : ∀ opcode, Relation.ReflTransGen (fun a b => Step E a b ∧ Discreet a b)
      ⟨.prompt, opcodeWorld opcode⟩ ⟨.execOnce 1, (opcodeWorld opcode).running⟩ := fun opcode =>
    .tail (.tail (.single ⟨step_command 1 _, hquiet rfl⟩) ⟨step_entry 1 rfl, hquiet rfl⟩)
      ⟨step_loopTest Nat.one_pos _, hquiet rfl⟩
  constructor
  · refine (@difftest_skips_asked _ E .other (x86_lawful true .idle (pure ())) rfl
      ⟨.prompt, opcodeWorld 0xd6⟩ _ ⟨rfl, rfl, rfl⟩ (hrun 0xd6) _ rfl ?_ ?_ .other).1 ?_ <;>
      decide +kernel
  · refine (@difftest_skips_asked _ E .other (x86_lawful true .idle (pure ())) rfl
      ⟨.prompt, opcodeWorld 0xb8⟩ _ ⟨rfl, rfl, rfl⟩ (hrun 0xb8) _ rfl ?_ ?_ .other).2 ?_ <;>
      decide +kernel

/-! ## A read at the prompt -/

/-- `init_argsrom` has registered its map, and the guest program is `mov $0x0, %eax`. -/
def argsromWorld : World Unit :=
  { World.zero () with
    machine := { Machine.zero with
      bus := { Bus.zero with
        pmem := fun a => if a = 0 then 0xb8 else 0
        io := { IOState.zero with
          mmioMaps := [⟨0xa2000000, 0xa2000fff, .ioSpace 0, none⟩] } } } }

/-- `x 1 0xa2000000` reads the map, and the next instruction is not compared although it has not
asked to be skipped. -/
theorem argsromWorld_skips :
    let E : Emulator Unit := .x86 true .idle (pure ())
    (⟨.prompt, argsromWorld⟩ : Config Unit).Attached ∧
    ∃ a, Steps E ⟨.prompt, argsromWorld⟩ a ∧ a.point = .execOnce 1 ∧
      (a.next E .other).world.Outside ∧
      (a.next E .other).world.skipRefCalls = a.world.skipRefCalls ∧
      Copied E (a.next E .other).world ((a.next E .other).next E .other).world := by
  intro E
  let a₁ := Config.next E (.x 1 0xa2000000) ⟨.prompt, argsromWorld⟩
  have hread : a₁ = ⟨.prompt, { argsromWorld with
      machine := { argsromWorld.machine with bus := argsromWorld.machine.bus.skipRef } }⟩ := rfl
  have hsteps : Steps E ⟨.prompt, argsromWorld⟩ ⟨.execOnce 1, a₁.world.running⟩ :=
    calc Steps E ⟨.prompt, argsromWorld⟩ a₁ := .single ⟨_, rfl⟩
      Steps E a₁ ⟨.execOnce 1, a₁.world.running⟩ := steps_call Nat.one_pos rfl
  refine ⟨⟨rfl, rfl, rfl⟩, _, hsteps, rfl, ⟨?_, ?_⟩, ?_, ?_⟩
  · decide +kernel
  · decide +kernel
  · decide +kernel
  · refine (@next_difftest _ E .other rfl _ 1 0 ?_ ⟨?_, ?_⟩).1 ?_ <;> decide +kernel

end Nemu
