import Mathlib.Logic.Function.Iterate
import Nemu.Monitor.DiffTestRun

/-!
# The window of difftest_skip_dut

`difftest_skip_dut(nr_ref, nr_dut)` lets the reference design run ahead.  The comment above it says
what it expects: that the emulator catches up within `nr_dut` instructions.  What the program does
until then is followed over its runs.
-/

namespace Nemu

open StateRules

variable {R : Type}

/-! ## Opening a window -/

/-- The statics of `diff-test.c` behind `difftest_skip_dut(nr_ref, nr_dut)`. -/
def DiffTest.opened (E : Emulator R) (nrRef nrDut : Int) (d : DiffTest R) : DiffTest R :=
  { d with
    skipDutNrInstr := d.skipDutNrInstr + nrDut
    ref := E.ref.exec^[nrRef.toNat] d.ref
    calls := d.calls ++ List.replicate nrRef.toNat .exec }

theorem execLoop_run (E : Emulator R) (l : List Nat) (w : World R) :
    (l.forM fun _ => refDifftestExec E) w = .ok ⟨⟩ { w with
      diff := { w.diff with
        ref := E.ref.exec^[l.length] w.diff.ref
        calls := w.diff.calls ++ List.replicate l.length .exec } } := by
  induction l generalizing w with
  | nil =>
      have hcalls : w.diff.calls ++ List.replicate ([] : List Nat).length .exec = w.diff.calls :=
        List.append_nil _
      rw [hcalls]
      rfl
  | cons i l ih =>
      let w₁ := final (refDifftestExec E w)
      have hexec : refDifftestExec E w = .ok ⟨⟩ w₁ := rfl
      have hcalls : w.diff.calls ++ List.replicate (i :: l).length .exec =
          w₁.diff.calls ++ List.replicate l.length .exec := by
        change _ = w.diff.calls ++ [.exec] ++ List.replicate l.length .exec
        rw [List.append_assoc, List.singleton_append, ← List.replicate_succ, List.length_cons]
      rw [hcalls]
      change (refDifftestExec E >>= fun _ => l.forM fun _ => refDifftestExec E) w = _
      exact (bind_ok hexec).trans (ih w₁)

theorem difftestSkipDut_run (E : Emulator R) (nrRef nrDut : Int) (w : World R) :
    difftestSkipDut E nrRef nrDut w = .ok ⟨⟩ { w with diff := w.diff.opened E nrRef nrDut } := by
  rw [difftestSkipDut]
  refine (bind_ok rfl).trans ((execLoop_run E _ _).trans ?_)
  rw [List.length_range]
  rfl

/-! ## One comparison in a window -/

/-- The window after `k` comparisons. -/
def DiffTest.waited (d : DiffTest R) (k : Nat) : DiffTest R :=
  { d with
    skipDutNrInstr := d.skipDutNrInstr - k
    calls := d.calls ++ List.replicate k .getregs }

theorem DiffTest.waited_zero (d : DiffTest R) : d.waited 0 = d := by
  simp [DiffTest.waited]

theorem DiffTest.waited_succ (d : DiffTest R) (k : Nat) :
    (d.waited k).waited 1 = d.waited (k + 1) := by
  have hcalls : d.calls ++ List.replicate k .getregs ++ [.getregs] =
      d.calls ++ List.replicate (k + 1) .getregs := by
    rw [List.append_assoc, ← List.replicate_succ']
  have hskip : d.skipDutNrInstr - k - (1 : Nat) = d.skipDutNrInstr - (k + 1 : Nat) := by omega
  change DiffTest.mk (d.skipDutNrInstr - k - (1 : Nat)) d.isDetach d.ref
    (d.calls ++ List.replicate k .getregs ++ [.getregs]) = _
  rw [hcalls, hskip]
  rfl

/-- Behind the comparison that closes the window. -/
def DiffTest.caughtUp (d : DiffTest R) (pc : Word) : DiffTest R :=
  { d with skipDutNrInstr := 0, calls := d.calls ++ [.getregs, .checkregs pc] }

/-- Where the reference design is. -/
def Emulator.refPc (E : Emulator R) (d : DiffTest R) : Word := (E.ref.getregs d.ref).pc

/-- The program is in a window. -/
structure World.Waits (w : World R) : Prop where
  isDetach : w.diff.isDetach = false
  skipDutNrInstr : 0 < w.diff.skipDutNrInstr

section Compare

variable {E : Emulator R} {w : World R} (oriPc : Word) {nextPc : Word}

theorem difftestStep_catchUp (hw : w.Waits) :
    difftestStep E oriPc nextPc w = catchUp E nextPc w := by
  rw [difftestStep, bind_ok (get_run w), if_neg (by rw [hw.isDetach]; exact Bool.false_ne_true),
    if_pos hw.skipDutNrInstr]

/-- The emulator is where the reference design is: everything is compared, and the window closed. -/
theorem difftestStep_caughtUp (hw : w.Waits) (hpc : E.refPc w.diff = nextPc) :
    Ensures (difftestStep E oriPc nextPc) w fun _ w' => w'.diff = w.diff.caughtUp nextPc := by
  rw [Ensures, difftestStep_catchUp oriPc hw]
  let w₁ := final (refDifftestGetregs E w)
  have hget : refDifftestGetregs E w = .ok (E.ref.getregs w.diff.ref) w₁ := rfl
  rcases checkregs_run (E := E) (E.ref.getregs w.diff.ref) nextPc w₁ with
    ⟨_, w₂, hcheck, hdiff, -, -⟩
  have hpc' : (E.ref.getregs w.diff.ref).pc = nextPc := hpc
  have hrun : catchUp E nextPc w =
      .ok ⟨⟩ { w₂ with diff := { w₂.diff with skipDutNrInstr := 0 } } := by
    rw [catchUp]
    rw [bind_ok hget, if_pos hpc']
    exact (bind_ok hcheck).trans rfl
  refine ⟨_, _, hrun, ?_⟩
  change { w₂.diff with skipDutNrInstr := 0 } = _
  rw [hdiff]
  change DiffTest.mk 0 w.diff.isDetach w.diff.ref
    (w.diff.calls ++ [RefCall.getregs] ++ [RefCall.checkregs nextPc]) = _
  rw [List.append_assoc]
  rfl

/-- It is not: one instruction less is left, and the last one has to be the right one. -/
theorem difftestStep_waits (hw : w.Waits) (hpc : E.refPc w.diff ≠ nextPc) :
    difftestStep E oriPc nextPc w =
      if w.diff.skipDutNrInstr = 1 then .error .abort { w with diff := w.diff.waited 1 }
      else .ok ⟨⟩ { w with diff := w.diff.waited 1 } := by
  rw [difftestStep_catchUp oriPc hw, catchUp]
  have hpc' : (E.ref.getregs w.diff.ref).pc ≠ nextPc := hpc
  let w₁ := final (refDifftestGetregs E w)
  have hget : refDifftestGetregs E w = .ok (E.ref.getregs w.diff.ref) w₁ := rfl
  have hcount : modifyDiff (fun d => { d with skipDutNrInstr := d.skipDutNrInstr - 1 }) w₁ =
      .ok ⟨⟩ { w with diff := w.diff.waited 1 } := rfl
  rw [bind_ok hget, if_neg hpc', bind_ok hcount, bind_ok (get_run _)]
  by_cases hlast : w.diff.skipDutNrInstr = 1
  · have hzero : (w.diff.waited 1).skipDutNrInstr = 0 := by
      change w.diff.skipDutNrInstr - (1 : Nat) = 0
      omega
    rw [if_pos hlast]
    change cAssert ((w.diff.waited 1).skipDutNrInstr != 0) _ = _
    rw [hzero]
    rfl
  · have hne : ((w.diff.waited 1).skipDutNrInstr != 0) = true := by
      have h : w.diff.skipDutNrInstr - (1 : Nat) ≠ 0 := by omega
      exact bne_iff_ne.2 h
    rw [if_neg hlast]
    change cAssert ((w.diff.waited 1).skipDutNrInstr != 0) _ = _
    rw [hne]
    rfl

end Compare

/-! ## Runs -/

/-- The statics of `diff-test.c` stay, apart from `is_skip_ref`. -/
def SameDiff (w w' : World R) : Prop := w'.diff = w.diff

instance : IsPreorder (World R) SameDiff where
  refl _ := rfl
  trans _ _ _ h h' := Eq.trans h' h

instance : WorldRel AnyBus (@SameDiff R) where
  debugger _ _ _ := rfl
  bus _ _ _ := rfl

/-- The instructions do not call `difftest_skip_dut`. -/
def Emulator.Quiet (E : Emulator R) : Prop := Within SameDiff E.execOnce

theorem x86_quiet (diffTest : Bool) (ref : Ref R) (deviceUpdate : OnIO Unit) :
    (Emulator.x86 diffTest ref deviceUpdate).Quiet := by
  intro w
  change SameDiff w (final (onMachine Nemu.execOnce w))
  rw [final_onMachine]
  rfl

/-- Everything but `difftest_step`. -/
theorem point_sameDiff {E : Emulator R} (hE : E.Quiet) (c : Command) {p : Point}
    (hp : ∀ n pc, p ≠ .difftest n pc) : Within SameDiff (p.run E c) := by
  have hstate : ∀ state, Within (@SameDiff R) (setState state) := fun _ _ => rfl
  cases p with
  | prompt => exact command_within c
  | entry n => exact entry_within E c hstate n
  | loopTest n => exact Within.pure _
  | execOnce n => exact Within.get.bind fun _ => Within.bind hE fun _ => Within.pure _
  | difftest n pc => exact absurd rfl (hp n pc)
  | asmPrint n =>
      have hprint : Within (@SameDiff R) (onMachine Nemu.asmPrint) := fun _ => rfl
      exact Within.get.bind fun w =>
        Within.ite (hprint.bind fun _ => Within.pure _) (Within.pure _)
  | check n =>
      refine Within.get.bind fun w => (onCheck_within _).bind fun fired => ?_
      exact Within.ite ((hstate _).bind fun _ => Within.pure _) (Within.pure _)
  | count n => exact Within.bind (Within.modify fun _ => rfl) fun _ => Within.pure _
  | deviceUpdate n => exact (onDevices_within _).bind fun _ => Within.pure _
  | breakTest n => exact breakTest_within E c n
  | finish => exact finish_within E c hstate
  | exited => exact Within.pure _

/-- Calls are only added. -/
def CallsGrow (w w' : World R) : Prop := w.diff.calls <+: w'.diff.calls

instance : IsPreorder (World R) CallsGrow where
  refl _ := List.prefix_rfl
  trans _ _ _ h h' := List.IsPrefix.trans h h'

theorem difftestStep_callsGrow (E : Emulator R) (oriPc nextPc : Word) :
    Within CallsGrow (difftestStep E oriPc nextPc) := by
  have hrecord : ∀ c, Within (@CallsGrow R) (recordCall c) := fun _ _ => List.prefix_append _ _
  have hrest : ∀ f : World R → World R, (∀ w, (f w).diff.calls = w.diff.calls) →
      Within CallsGrow (modify f : OnWorld R PUnit) := by
    intro f hf w
    change w.diff.calls <+: (f w).diff.calls
    exact ⟨[], by rw [hf w, List.append_nil]⟩
  have hget : Within CallsGrow (refDifftestGetregs E) :=
    (hrecord _).bind fun _ => Within.get.bind fun _ => Within.pure _
  have hcheck : ∀ ref pc, Within CallsGrow (checkregs E ref pc) := fun ref pc =>
    (hrecord _).bind fun _ => Within.get.bind fun _ =>
      Within.ite (Within.pure _) (hrest _ fun _ => rfl)
  refine Within.get.bind fun w => Within.ite (Within.pure _) (Within.ite ?_ (Within.ite ?_ ?_))
  · refine hget.bind fun refR => Within.ite ?_ ?_
    · exact (hcheck _ _).bind fun _ => hrest _ fun _ => rfl
    · have hcount : Within (@CallsGrow R)
          (modifyDiff fun d => { d with skipDutNrInstr := d.skipDutNrInstr - 1 }) :=
        hrest _ fun _ => rfl
      exact hcount.bind fun _ => Within.get.bind fun _ => cAssert_within _
  · have hset : Within CallsGrow (refDifftestSetregs E w.machine.cpu) :=
      (hrecord _).bind fun _ => hrest _ fun _ => rfl
    exact hset.bind fun _ => hrest _ fun _ => rfl
  · have hexec : Within CallsGrow (refDifftestExec E) :=
      (hrecord _).bind fun _ => hrest _ fun _ => rfl
    exact hexec.bind fun _ => hget.bind fun _ => hcheck _ _

/-- The window is as wide as before. -/
def SameWindow (w w' : World R) : Prop := w'.diff.skipDutNrInstr = w.diff.skipDutNrInstr

instance : IsPreorder (World R) SameWindow where
  refl _ := rfl
  trans _ _ _ h h' := Eq.trans h' h

/-- Outside a window no comparison opens one. -/
theorem difftestStep_closed (E : Emulator R) (oriPc nextPc : Word) {w : World R}
    (hclosed : w.diff.skipDutNrInstr = 0) :
    (final (difftestStep E oriPc nextPc w)).diff.skipDutNrInstr = 0 := by
  have hmod : ∀ f : World R → World R, (∀ w, (f w).diff.skipDutNrInstr = w.diff.skipDutNrInstr) →
      Within SameWindow (modify f : OnWorld R PUnit) := fun f hf w => hf w
  have hrecord : ∀ c, Within (@SameWindow R) (recordCall c) := fun _ => hmod _ fun _ => rfl
  have hset : Within SameWindow (refDifftestSetregs E w.machine.cpu) :=
    (hrecord _).bind fun _ => hmod _ fun _ => rfl
  have hskip : Within (@SameWindow R) (setSkipRef false) := hmod _ fun _ => rfl
  have hexec : Within SameWindow (refDifftestExec E) :=
    (hrecord _).bind fun _ => hmod _ fun _ => rfl
  have hget : Within SameWindow (refDifftestGetregs E) :=
    (hrecord _).bind fun _ => Within.get.bind fun _ => Within.pure _
  have hcheck : ∀ ref pc, Within SameWindow (checkregs E ref pc) := fun ref pc =>
    (hrecord _).bind fun _ => Within.get.bind fun _ =>
      Within.ite (Within.pure _) (hmod _ fun _ => rfl)
  rw [difftestStep, bind_ok (get_run w)]
  by_cases hdetach : w.diff.isDetach
  · rw [if_pos hdetach]
    exact hclosed
  · rw [if_neg hdetach, if_neg (Int.not_lt.2 (Int.le_of_eq hclosed))]
    refine (Within.ite (hset.bind fun _ => hskip) ?_ w).trans hclosed
    exact hexec.bind fun _ => hget.bind fun _ => hcheck _ _

/-- The `pc` that the statement compares with that of the reference design. -/
def Config.compared (a : Config R) : List Word :=
  match a.point with
  | .difftest _ _ => [a.world.machine.cpu.pc]
  | _ => []

/-- Runs of the program, with what has been compared. -/
inductive Compares (E : Emulator R) (a : Config R) : List Word → Config R → Prop
  | refl : Compares E a [] a
  | tail {b : Config R} {pcs : List Word} (hrun : Compares E a pcs b) (c : Command) :
      Compares E a (pcs ++ b.compared) (b.next E c)

section Window

variable {E : Emulator R} (hE : E.Quiet) (hdiff : E.diffTest = true)

/-- The two kinds of statements. -/
theorem point_cases (p : Point) :
    (∃ n pc, p = .difftest n pc) ∨ ∀ n pc, p ≠ .difftest n pc := by
  by_cases h : ∃ n pc, p = .difftest n pc
  · exact .inl h
  · exact .inr fun n pc hp => h ⟨n, pc, hp⟩

theorem compared_of_ne {b : Config R} (hp : ∀ n pc, b.point ≠ .difftest n pc) :
    b.compared = [] := by
  unfold Config.compared
  split
  · rename_i n pc h
    exact absurd h (hp n pc)
  · rfl

theorem compared_difftest {b : Config R} {n : Nat} {pc : Word} (hp : b.point = .difftest n pc) :
    b.compared = [b.world.machine.cpu.pc] := by
  rw [Config.compared, hp]

include hE in
theorem next_sameDiff {b : Config R} (hp : ∀ n pc, b.point ≠ .difftest n pc) (c : Command) :
    (b.next E c).world.diff = b.world.diff := by
  rw [next_world]
  exact point_sameDiff hE c hp b.world

include hdiff in
/-- A comparison is a call of `difftest_step`. -/
theorem next_compare {b : Config R} {n : Nat} {pc : Word} (hp : b.point = .difftest n pc)
    (c : Command) :
    b.next E c =
      match difftestStep E pc b.world.machine.cpu.pc b.world with
      | .ok _ w => ⟨.asmPrint n, w⟩
      | .error _ w => ⟨.exited, w⟩ := by
  unfold Config.next
  rw [hp, Point.run, bind_ok (get_run _), if_pos hdiff]
  cases hrun : difftestStep E pc b.world.machine.cpu.pc b.world with
  | ok u w => rw [bind_ok hrun]; rfl
  | error e w => rw [bind_error hrun]

include hdiff in
theorem next_compare_world {b : Config R} {n : Nat} {pc : Word} (hp : b.point = .difftest n pc)
    (c : Command) :
    (b.next E c).world = final (difftestStep E pc b.world.machine.cpu.pc b.world) := by
  rw [next_compare hdiff hp]
  cases difftestStep E pc b.world.machine.cpu.pc b.world <;> rfl

theorem exited_next {b : Config R} {c : Command} (h : (b.next E c).point ≠ .exited) :
    b.point ≠ .exited := by
  intro hp
  have hflow := next_flow E c b
  rw [hp] at hflow
  generalize (b.next E c).point = q at h hflow
  cases hflow
  exact h rfl

/-- Nothing but `getregs` has been called while the emulator was somewhere else. -/
structure Waiting (d₀ : DiffTest R) (pcs : List Word) (b : Config R) : Prop where
  diff : b.world.diff = d₀.waited pcs.length
  left : (pcs.length : Int) < d₀.skipDutNrInstr

/-- The comparison that came first to where the reference design is was in time, compared the
registers and closed the window. -/
structure CaughtUp (d₀ : DiffTest R) (refPc : Word) (pcs : List Word) (b : Config R) : Prop where
  inTime : (pcs.idxOf refPc : Int) < d₀.skipDutNrInstr
  closed : b.world.diff.skipDutNrInstr = 0
  calls : ((d₀.waited (pcs.idxOf refPc)).caughtUp refPc).calls <+: b.world.diff.calls

section Step

variable {d₀ : DiffTest R} (hdetach : d₀.isDetach = false) {pcs : List Word} {b : Config R}

include hdetach in
theorem Waiting.waits (h : Waiting d₀ pcs b) : b.world.Waits := by
  have hleft := h.left
  refine ⟨?_, ?_⟩
  · rw [h.diff]
    exact hdetach
  · rw [h.diff]
    change 0 < d₀.skipDutNrInstr - (pcs.length : Int)
    omega

theorem Waiting.refPc (h : Waiting d₀ pcs b) : E.refPc b.world.diff = E.refPc d₀ := by
  rw [h.diff]
  rfl

include hdiff hdetach in
/-- A comparison in the window. -/
theorem Waiting.compare (h : Waiting d₀ pcs b) {n : Nat} {pc : Word}
    (hp : b.point = .difftest n pc) (c : Command) :
    (b.world.machine.cpu.pc = E.refPc d₀ →
      (b.next E c).point ≠ .exited ∧
        (b.next E c).world.diff = (d₀.waited pcs.length).caughtUp (E.refPc d₀)) ∧
    (b.world.machine.cpu.pc ≠ E.refPc d₀ →
      ((b.next E c).point = .exited ↔ (pcs.length + 1 : Int) = d₀.skipDutNrInstr) ∧
        (b.next E c).world.diff = d₀.waited (pcs.length + 1)) := by
  have hwaits := h.waits hdetach
  have hleft := h.left
  have hskip : b.world.diff.skipDutNrInstr = d₀.skipDutNrInstr - pcs.length := by
    rw [h.diff]
    rfl
  rw [next_compare hdiff hp]
  constructor
  · intro hpc
    rcases difftestStep_caughtUp (E := E) pc hwaits (h.refPc.trans hpc.symm) with
      ⟨_, w, hrun, hw⟩
    rw [hrun]
    refine ⟨fun hexit => Point.noConfusion hexit, ?_⟩
    rw [hpc] at hw
    exact hw.trans (congrArg (fun d => d.caughtUp (E.refPc d₀)) h.diff)
  · intro hpc
    have hrun := difftestStep_waits (E := E) pc hwaits (fun heq => hpc (heq.symm.trans h.refPc))
    have hnext : b.world.diff.waited 1 = d₀.waited (pcs.length + 1) := by
      rw [h.diff, DiffTest.waited_succ]
    -- the assertion fails behind the last instruction of the window
    by_cases hlast : b.world.diff.skipDutNrInstr = 1
    · rw [hrun, if_pos hlast]
      exact ⟨iff_of_true rfl (by omega), hnext⟩
    · rw [hrun, if_neg hlast]
      exact ⟨iff_of_false (fun hexit => Point.noConfusion hexit) (by omega), hnext⟩

include hdiff hdetach in
/-- The emulator is still somewhere else, and not too late. -/
theorem Waiting.next_waiting (h : Waiting d₀ pcs b) {n : Nat} {pc : Word}
    (hp : b.point = .difftest n pc) {c : Command} (hne : b.world.machine.cpu.pc ≠ E.refPc d₀)
    (hb : (b.next E c).point ≠ .exited) :
    Waiting d₀ (pcs ++ [b.world.machine.cpu.pc]) (b.next E c) := by
  rcases (h.compare hdiff hdetach hp c).2 hne with ⟨hexit, hnext⟩
  have hlen : (pcs ++ [b.world.machine.cpu.pc]).length = pcs.length + 1 := by simp
  have hleft := h.left
  have hnotlast := mt hexit.2 hb
  refine ⟨by rw [hlen]; exact hnext, ?_⟩
  rw [hlen]
  omega

include hdiff hdetach in
/-- The comparison that closes the window. -/
theorem Waiting.next_caughtUp (h : Waiting d₀ pcs b) (hmem : E.refPc d₀ ∉ pcs) {n : Nat} {pc : Word}
    (hp : b.point = .difftest n pc) (c : Command) (hpc : b.world.machine.cpu.pc = E.refPc d₀) :
    CaughtUp d₀ (E.refPc d₀) (pcs ++ [b.world.machine.cpu.pc]) (b.next E c) := by
  have hnext := ((h.compare hdiff hdetach hp c).1 hpc).2
  have hidx : (pcs ++ [b.world.machine.cpu.pc]).idxOf (E.refPc d₀) = pcs.length := by
    rw [hpc, List.idxOf_append_of_notMem hmem]
    simp
  refine ⟨?_, ?_, ?_⟩
  · rw [hidx]
    exact h.left
  · rw [hnext]
    rfl
  · exact ⟨[], by rw [hidx, hnext, List.append_nil]⟩

include hdiff in
/-- A comparison behind the one that closed the window: what has been called stays called. -/
theorem CaughtUp.compare {refPc : Word} (h : CaughtUp d₀ refPc pcs b) (hmem : refPc ∈ pcs)
    {n : Nat} {pc : Word} (hp : b.point = .difftest n pc) (c : Command) (more : List Word) :
    CaughtUp d₀ refPc (pcs ++ more) (b.next E c) := by
  have hworld := next_compare_world hdiff hp c
  refine ⟨?_, ?_, ?_⟩
  · rw [List.idxOf_append_of_mem hmem]
    exact h.inTime
  · rw [hworld]
    exact difftestStep_closed E pc b.world.machine.cpu.pc h.closed
  · rw [List.idxOf_append_of_mem hmem, hworld]
    exact h.calls.trans (difftestStep_callsGrow E pc b.world.machine.cpu.pc b.world)

end Step

/-- Behind these comparisons the window is still open, or has been closed by one of them. -/
structure Window (E : Emulator R) (d₀ : DiffTest R) (pcs : List Word) (b : Config R) : Prop where
  waiting : E.refPc d₀ ∉ pcs → Waiting d₀ pcs b
  caughtUp : E.refPc d₀ ∈ pcs → CaughtUp d₀ (E.refPc d₀) pcs b

include hE hdiff in
/-- One step of the program keeps track of the window. -/
theorem next_window {d₀ : DiffTest R} (hdetach : d₀.isDetach = false) {pcs : List Word}
    {b : Config R} {c : Command} (hb : (b.next E c).point ≠ .exited) (h : Window E d₀ pcs b) :
    Window E d₀ (pcs ++ b.compared) (b.next E c) := by
  rcases point_cases b.point with ⟨n, pc, hp⟩ | hp
  · rw [compared_difftest hp]
    by_cases hmem : E.refPc d₀ ∈ pcs
    · exact ⟨fun hnot => absurd (List.mem_append_left _ hmem) hnot,
        fun _ => (h.caughtUp hmem).compare hdiff hmem hp c _⟩
    -- the window is open, and this comparison may close it
    have hwaiting := h.waiting hmem
    constructor
    · intro hnot
      have hne : b.world.machine.cpu.pc ≠ E.refPc d₀ := fun heq =>
        hnot (List.mem_append_right _ (by simp [heq]))
      exact hwaiting.next_waiting hdiff hdetach hp hne hb
    · intro hin
      have hpc : b.world.machine.cpu.pc = E.refPc d₀ := by
        rcases List.mem_append.1 hin with hin | hin
        · exact absurd hin hmem
        · exact (List.mem_singleton.1 hin).symm
      exact hwaiting.next_caughtUp hdiff hdetach hmem hp c hpc
  · rw [compared_of_ne hp, List.append_nil]
    have hsame := next_sameDiff hE hp c
    constructor
    · intro hnot
      have hwaiting := h.waiting hnot
      exact ⟨hsame.trans hwaiting.diff, hwaiting.left⟩
    · intro hin
      have hcaught := h.caughtUp hin
      exact ⟨hcaught.inTime, hsame ▸ hcaught.closed, hsame ▸ hcaught.calls⟩

include hE hdiff in
theorem Compares.window {d₀ : DiffTest R} (hdetach : d₀.isDetach = false)
    (hopen : 0 < d₀.skipDutNrInstr) {a b : Config R} {pcs : List Word} (ha : a.world.diff = d₀)
    (hrun : Compares E a pcs b) (hb : b.point ≠ .exited) : Window E d₀ pcs b := by
  induction hrun with
  | refl =>
      refine ⟨fun _ => ⟨?_, hopen⟩, fun hin => absurd hin List.not_mem_nil⟩
      rw [List.length_nil, DiffTest.waited_zero]
      exact ha
  | tail _ c ih => exact next_window hE hdiff hdetach hb (ih (exited_next hb))

/-- `difftest_skip_dut` does what the comment above it says: the reference design executes
`nr_ref` instructions, and from then on nothing is executed or compared until the emulator is where
the reference design is.  The comparison there closes the window for good.  The emulator has `nr_dut`
instructions to get there, and the program ends with the one that is not in time. -/
theorem difftestSkipDut_catchesUp (hE : E.Quiet) (hdiff : E.diffTest = true) {w₀ w : World R}
    (hdetach : w₀.diff.isDetach = false) (hclosed : w₀.diff.skipDutNrInstr = 0)
    {nrRef nrDut : Int} (hnr : 0 < nrDut) (hskip : difftestSkipDut E nrRef nrDut w₀ = .ok ⟨⟩ w)
    {p : Point} {pcs : List Word} {b : Config R} (hrun : Compares E ⟨p, w⟩ pcs b)
    (hb : b.point ≠ .exited) :
    let refPc := (E.ref.getregs (E.ref.exec^[nrRef.toNat] w₀.diff.ref)).pc
    let opened := w₀.diff.opened E nrRef nrDut
    (refPc ∉ pcs → (pcs.length : Int) < nrDut ∧ b.world.diff = opened.waited pcs.length ∧
      ∀ n pc c, b.point = .difftest n pc →
        ((b.next E c).point = .exited ↔
          b.world.machine.cpu.pc ≠ refPc ∧ (pcs.length + 1 : Int) = nrDut) ∧
        (b.world.machine.cpu.pc = refPc →
          (b.next E c).world.diff = (opened.waited pcs.length).caughtUp refPc)) ∧
    (refPc ∈ pcs → (pcs.idxOf refPc : Int) < nrDut ∧ b.world.diff.skipDutNrInstr = 0 ∧
      ((opened.waited (pcs.idxOf refPc)).caughtUp refPc).calls <+: b.world.diff.calls) := by
  intro refPc opened
  have hopened : w.diff = opened := by
    rw [difftestSkipDut_run] at hskip
    cases hskip
    rfl
  have hdetach' : opened.isDetach = false := hdetach
  have hnr' : opened.skipDutNrInstr = nrDut := by
    change w₀.diff.skipDutNrInstr + nrDut = nrDut
    rw [hclosed, Int.zero_add]
  have hopen : 0 < opened.skipDutNrInstr := hnr'.symm ▸ hnr
  have hwindow : Window E opened pcs b := hrun.window hE hdiff hdetach' hopen hopened hb
  refine ⟨fun hnot => ?_, fun hin => ?_⟩
  · have h := hwindow.waiting hnot
    have hleft := h.left
    rw [hnr'] at hleft
    refine ⟨hleft, h.diff, fun n pc c hp => ?_⟩
    rcases h.compare hdiff hdetach' hp c with ⟨hthere, helsewhere⟩
    rw [hnr'] at helsewhere
    refine ⟨⟨?_, ?_⟩, fun heq => (hthere heq).2⟩
    · intro hexit
      have hne : b.world.machine.cpu.pc ≠ refPc := fun heq => (hthere heq).1 hexit
      exact ⟨hne, (helsewhere hne).1.1 hexit⟩
    · rintro ⟨hne, hlast⟩
      exact (helsewhere hne).1.2 hlast
  · have h := hwindow.caughtUp hin
    have hleft := h.inTime
    rw [hnr'] at hleft
    exact ⟨hleft, h.closed, h.calls⟩

end Window

/-- A reference design that stays where it is. -/
def Ref.standing (pc : Word) : Ref Unit :=
  { getregs := fun _ => { CPUState.zero with pc }, setregs := fun _ _ => (), exec := fun _ => () }

/-- The window is opened, and an instruction executed and compared. -/
def windowTurn (pc : Word) : Config Unit :=
  let E : Emulator Unit := .x86 true (.standing pc) (pure ())
  let a : Config Unit := ⟨.execOnce 1, final (difftestSkipDut E 1 2 argsromWorld)⟩
  (a.next E .other).next E .other

/-- `mov $0x0, %eax` leads from 0 to 5: one of two instructions is spent if the reference design is
at 0, and the window is closed if it is at 5. -/
theorem difftestSkipDut_catchesUp_mov :
    ((windowTurn 0).world.diff.calls = [.exec, .getregs] ∧
        (windowTurn 0).world.diff.skipDutNrInstr = 1) ∧
      (windowTurn 5).world.diff.skipDutNrInstr = 0 ∧
      [.exec, .getregs, .checkregs 5] <+: (windowTurn 5).world.diff.calls := by
  have hrun : ∀ pc : Word, pc = 0 ∨ pc = 5 →
      Compares (.x86 true (.standing pc) (pure ()))
        ⟨.execOnce 1, final (difftestSkipDut (.x86 true (.standing pc) (pure ())) 1 2 argsromWorld)⟩
        [5] (windowTurn pc) ∧ (windowTurn pc).point ≠ .exited := by
    intro pc hpc
    let E : Emulator Unit := .x86 true (.standing pc) (pure ())
    let a : Config Unit := ⟨.execOnce 1, final (difftestSkipDut E 1 2 argsromWorld)⟩
    have hcompares : Compares E a (([] ++ a.compared) ++ (a.next E .other).compared)
        (windowTurn pc) := .tail (.tail .refl .other) .other
    have hturn : ([] ++ a.compared) ++ (a.next E .other).compared = [5] ∧
        (windowTurn pc).point ≠ .exited := by
      rcases hpc with rfl | rfl <;> decide +kernel
    exact ⟨hturn.1 ▸ hcompares, hturn.2⟩
  have hskip : ∀ pc, difftestSkipDut (.x86 true (.standing pc) (pure ())) 1 2 argsromWorld =
      .ok ⟨⟩ (final (difftestSkipDut (.x86 true (.standing pc) (pure ())) 1 2 argsromWorld)) :=
    fun _ => rfl
  constructor
  · have hwindow := (difftestSkipDut_catchesUp (x86_quiet _ _ _) rfl rfl rfl (by decide) (hskip 0)
      (hrun 0 (.inl rfl)).1 (hrun 0 (.inl rfl)).2).1 (by decide)
    rw [hwindow.2.1]
    exact ⟨rfl, rfl⟩
  · have hwindow := (difftestSkipDut_catchesUp (x86_quiet _ _ _) rfl rfl rfl (by decide) (hskip 5)
      (hrun 5 (.inr rfl)).1 (hrun 5 (.inr rfl)).2).2 (by decide)
    exact ⟨hwindow.2.1, hwindow.2.2⟩

end Nemu
