import Nemu.Monitor.WorldRules
import Nemu.X86.TraceRules

/-!
# The trace buffers over runs

`cpu_exec` empties the two buffers behind every instruction up to the `LOG_MAX`-th, so that each of
these starts with empty ones.  One more instruction still finds them empty.
-/

namespace Nemu

open StateRules

variable {R : Type}

/-! ## What leaves the trace alone -/

structure SameTrace (w w' : World R) : Prop where
  trace : w'.machine.trace = w.machine.trace
  decinfo : w'.machine.decinfo = w.machine.decinfo
  count : w'.gNrGuestInstr = w.gNrGuestInstr

instance : DiffRel AnyBus (@SameTrace R) where
  refl _ := ⟨rfl, rfl, rfl⟩
  trans _ _ _ h h' :=
    ⟨h'.trace.trans h.trace, h'.decinfo.trans h.decinfo, h'.count.trans h.count⟩
  debugger _ _ _ := ⟨rfl, rfl, rfl⟩
  bus _ _ _ := ⟨rfl, rfl, rfl⟩
  diff _ _ := ⟨rfl, rfl, rfl⟩
  isSkipRef _ := fun _ => ⟨rfl, rfl, rfl⟩
  abort _ _ := ⟨rfl, rfl, rfl⟩

theorem setState_sameTrace (state : RunState) : Within (@SameTrace R) (setState state) :=
  fun _ => ⟨rfl, rfl, rfl⟩

/-- Everything but the instruction itself, `asm_print` and the counter. -/
theorem point_sameTrace (E : Emulator R) (c : Command) {p : Point} (hexec : ∀ n, p ≠ .execOnce n)
    (hprint : ∀ n, p ≠ .asmPrint n) (hcount : ∀ n, p ≠ .count n) :
    Within SameTrace (p.run E c) := by
  cases p with
  | prompt => exact command_within c
  | entry n => exact entry_within E c setState_sameTrace n
  | loopTest n => exact Within.pure _
  | execOnce n => exact absurd rfl (hexec n)
  | difftest n oriPc =>
      refine Within.get.bind fun w => ?_
      exact Within.ite ((difftestStep_within E _ _).bind fun _ => Within.pure _) (Within.pure _)
  | asmPrint n => exact absurd rfl (hprint n)
  | check n =>
      refine Within.get.bind fun w => (onCheck_within _).bind fun fired => ?_
      exact Within.ite ((setState_sameTrace _).bind fun _ => Within.pure _) (Within.pure _)
  | count n => exact absurd rfl (hcount n)
  | deviceUpdate n => exact (onDevices_within _).bind fun _ => Within.pure _
  | breakTest n => exact breakTest_within E c n
  | finish => exact finish_within E c setState_sameTrace
  | exited => exact Within.pure _

/-! ## The invariant -/

def Trace.Empty (t : Trace) : Prop := t.bytebuf = [] ∧ t.asmbuf = []

/-- Where the buffers are empty, given the instructions counted so far. -/
def Clean (p : Point) (count : BitVec 64) (t : Trace) : Prop :=
  match p with
  | .difftest _ _ | .asmPrint _ => count ≤ logMax
  | .check _ | .count _ => count ≤ logMax ∧ (count < logMax → t.Empty)
  | .exited => True
  | _ => count ≤ logMax → t.Empty

structure TraceInv (a : Config R) : Prop where
  fits : a.world.machine.trace.Fitting
  texts : a.world.machine.ShortTexts
  clean : Clean a.point a.world.gNrGuestInstr a.world.machine.trace

/-- The condition on a step: an instruction is one of the first `LOG_MAX + 1` and fetches at most
26 bytes. -/
def Config.Traceable (a : Config R) : Prop :=
  ∀ n, a.point = .execOnce n →
    a.world.gNrGuestInstr ≤ logMax ∧ fetchedBytes a.world.machine ≤ 26

/-- The configuration in which the command loop starts. -/
structure Config.Booted (a : Config R) : Prop where
  point : a.point = .prompt
  trace : a.world.machine.trace = .zero
  decinfo : a.world.machine.decinfo = .zero

theorem Config.Booted.traceInv {a : Config R} (h : a.Booted) : TraceInv a where
  fits := by
    rw [h.trace]
    exact ⟨rfl, by decide, by decide⟩
  texts := by
    intro op
    rw [h.decinfo]
    exact Nat.zero_le _
  clean := by
    rw [h.point, h.trace]
    exact fun _ => ⟨rfl, rfl⟩

theorem SameTrace.shortTexts {w w' : World R} (h : SameTrace w w')
    (hw : w.machine.ShortTexts) : w'.machine.ShortTexts := by
  unfold Machine.ShortTexts
  rw [h.decinfo]
  exact hw

/-- A step between two points with the same claim on the buffers. -/
theorem TraceInv.of_sameTrace {a b : Config R} (ha : TraceInv a)
    (h : SameTrace a.world b.world)
    (hclean : Clean a.point a.world.gNrGuestInstr a.world.machine.trace →
      Clean b.point a.world.gNrGuestInstr a.world.machine.trace) : TraceInv b where
  fits := by rw [h.trace]; exact ha.fits
  texts := h.shortTexts ha.texts
  clean := by
    rw [h.count, h.trace]
    exact hclean ha.clean

/-- The statements that leave the trace alone lead to points with the same claim on it. -/
theorem Clean.flow {p q : Point} {count : BitVec 64} {t : Trace} (hflow : Flow p q)
    (hexec : ∀ n, p ≠ .execOnce n) (hprint : ∀ n, p ≠ .asmPrint n) (hcount : ∀ n, p ≠ .count n)
    (h : Clean p count t) : Clean q count t := by
  cases hflow with
  | compare => exact absurd rfl (hexec _)
  | watch => exact absurd rfl (hprint _)
  | update => exact absurd rfl (hcount _)
  | exit => exact trivial
  | _ => exact h

/-! ## Steps -/

section Steps

variable (diffTest : Bool) (ref : Ref R) (deviceUpdate : OnIO Unit) (c : Command)

theorem execOnce_world (n : Nat) (w : World R) :
    final (Point.run (.x86 diffTest ref deviceUpdate) c (.execOnce n) w) =
      { w with machine := final (execOnce w.machine) } := by
  rw [Point.run, bind_ok (get_run w)]
  exact (final_bind_pure _ _ w).trans (final_onMachine execOnce w)

theorem traceInv_execOnce {a : Config R} {n : Nat} (ha : TraceInv a) (hp : a.point = .execOnce n)
    (hcount : a.world.gNrGuestInstr ≤ logMax) :
    (a.next (.x86 diffTest ref deviceUpdate) c).world.machine.trace.Fitting ↔
      fetchedBytes a.world.machine ≤ 26 := by
  have hclean := ha.clean
  rw [hp] at hclean
  have hempty := hclean hcount
  rw [next_world, hp, execOnce_world]
  exact execOnce_fitting_iff ⟨⟨ha.fits.fits, hempty.1, hempty.2⟩, ha.texts⟩

/-- The text is printed and the buffers are emptied for the first `LOG_MAX` instructions. -/
theorem asmPrint_world (E : Emulator R) (n : Nat) (w : World R) :
    final (Point.run E c (.asmPrint n) w) =
      if w.gNrGuestInstr < logMax then
        { w with machine := { w.machine with trace := w.machine.trace.ofBuffers [] [] } }
      else w := by
  rw [Point.run, bind_ok (get_run w)]
  split <;> rfl

theorem next_traceInv_execOnce {a : Config R} {n : Nat} (ha : TraceInv a)
    (hp : a.point = .execOnce n) (hgood : a.Traceable) :
    TraceInv (a.next (.x86 diffTest ref deviceUpdate) c) := by
  have hflow := next_flow (.x86 diffTest ref deviceUpdate) c a
  have hworld : (a.next (.x86 diffTest ref deviceUpdate) c).world =
      { a.world with machine := final (execOnce a.world.machine) } := by
    rw [next_world, hp, execOnce_world]
  rcases hgood n hp with ⟨hcount, hbytes⟩
  refine ⟨(traceInv_execOnce diffTest ref deviceUpdate c ha hp hcount).2 hbytes, ?_, ?_⟩
  · rw [hworld]
    exact (execOnce_traceRel a.world.machine ha.texts).2
  · rw [hworld]
    generalize (a.next (.x86 diffTest ref deviceUpdate) c).point = q at hflow
    rw [hp] at hflow
    cases hflow with
    | compare => exact hcount
    | exit => exact trivial

theorem next_traceInv_asmPrint (E : Emulator R) {a : Config R} {n : Nat} (ha : TraceInv a)
    (hp : a.point = .asmPrint n) : TraceInv (a.next E c) := by
  have hflow := next_flow E c a
  have hworld : (a.next E c).world = final (Point.run E c (.asmPrint n) a.world) := by
    rw [next_world, hp]
  have hcount := ha.clean
  rw [hp] at hcount
  rw [asmPrint_world] at hworld
  generalize hnext : a.next E c = b at hflow hworld
  rcases b with ⟨q, w⟩
  rw [hp] at hflow
  dsimp only at hflow hworld
  subst hworld
  split
  -- the buffers are emptied as long as the log is written
  case isTrue hlt =>
    refine ⟨ha.fits.clear, ha.texts, ?_⟩
    cases hflow with
    | watch => exact ⟨hcount, fun _ => ⟨rfl, rfl⟩⟩
    | exit => exact trivial
  case isFalse hge =>
    refine ⟨ha.fits, ha.texts, ?_⟩
    cases hflow with
    | watch => exact ⟨hcount, fun hlt => absurd hlt hge⟩
    | exit => exact trivial

theorem next_traceInv_count (E : Emulator R) {a : Config R} {n : Nat} (ha : TraceInv a)
    (hp : a.point = .count n) : TraceInv (a.next E c) := by
  rcases a with ⟨p, w⟩
  dsimp only at hp
  subst hp
  rcases ha.clean with ⟨hcount, hempty⟩
  refine ⟨ha.fits, ha.texts, fun hle => hempty ?_⟩
  -- the counter does not wrap around below `LOG_MAX`
  change w.gNrGuestInstr + 1 ≤ logMax at hle
  change w.gNrGuestInstr ≤ logMax at hcount
  change w.gNrGuestInstr < logMax
  rw [logMax] at *
  bv_omega

/-- One statement keeps the invariant. -/
theorem next_traceInv {a : Config R} (ha : TraceInv a) (hgood : a.Traceable) :
    TraceInv (a.next (.x86 diffTest ref deviceUpdate) c) := by
  by_cases hexec : ∃ n, a.point = .execOnce n
  · rcases hexec with ⟨n, hn⟩
    exact next_traceInv_execOnce diffTest ref deviceUpdate c ha hn hgood
  by_cases hprint : ∃ n, a.point = .asmPrint n
  · rcases hprint with ⟨n, hn⟩
    exact next_traceInv_asmPrint c _ ha hn
  by_cases hcount : ∃ n, a.point = .count n
  · rcases hcount with ⟨n, hn⟩
    exact next_traceInv_count c _ ha hn
  rw [not_exists] at hexec hprint hcount
  have hflow := next_flow (.x86 diffTest ref deviceUpdate) c a
  have hsame := point_sameTrace (.x86 diffTest ref deviceUpdate) c hexec hprint hcount a.world
  rw [← next_world] at hsame
  exact ha.of_sameTrace hsame (Clean.flow hflow hexec hprint hcount)

/-! ## Runs -/

/-- In a run whose instructions are all among the first `LOG_MAX + 1` and at most 26 bytes long, no
string reaches the size of its array.  Among these instructions the bound on the length is exact. -/
theorem trace_fits {start a : Config R} (hstart : start.Booted)
    (hrun : Relation.ReflTransGen
      (fun a b => Step (.x86 diffTest ref deviceUpdate) a b ∧ a.Traceable) start a) :
    a.world.machine.trace.Fitting ∧
      ∀ n, a.point = .execOnce n → a.world.gNrGuestInstr ≤ logMax → ∀ c,
        ((a.next (.x86 diffTest ref deviceUpdate) c).world.machine.trace.Fitting ↔
          fetchedBytes a.world.machine ≤ 26) := by
  have hinv : TraceInv a := by
    induction hrun with
    | refl => exact hstart.traceInv
    | tail _ hstep ih =>
        rcases hstep with ⟨⟨c, rfl⟩, hgood⟩
        exact next_traceInv diffTest ref deviceUpdate c ih hgood
  exact ⟨hinv.fits, fun n hn hcount c =>
    traceInv_execOnce diffTest ref deviceUpdate c hinv hn hcount⟩

end Steps

/-- The program starts on a memory of zeros, and executes the invalid opcode there. -/
theorem trace_fits_zero :
    (Config.next (.x86 false .idle (pure ())) .other
      ⟨.execOnce 1, (World.zero ()).running⟩).world.machine.trace.Fitting := by
  have hother : ∀ {p : Point} {w : World Unit}, (∀ n, p ≠ .execOnce n) →
      (⟨p, w⟩ : Config Unit).Traceable := fun h n hn => absurd hn (h n)
  have hgood : (⟨.execOnce 1, (World.zero ()).running⟩ : Config Unit).Traceable :=
    fun _ _ => ⟨by decide, by decide +kernel⟩
  refine (@trace_fits _ false .idle (pure ()) ⟨.prompt, World.zero ()⟩ _ ⟨rfl, rfl, rfl⟩ ?_).1
  refine .tail (.tail (.tail (.single ⟨step_command 1 _, hother ?_⟩)
    ⟨step_entry 1 rfl, hother ?_⟩) ⟨step_loopTest Nat.one_pos _, hother ?_⟩) ⟨⟨.other, rfl⟩, hgood⟩
  all_goals exact fun n h => by cases h

/-- Memory starts with 27 operand-size prefixes, `nemu_trap` stands behind them. -/
def prefixWorld : World Unit :=
  { World.zero () with
    machine := { Machine.zero with
      bus := { Bus.zero with pmem := fun a => if a < 27 then 0x66 else 0xd6 } } }

theorem prefixWorld_overflows :
    (⟨.prompt, prefixWorld⟩ : Config Unit).Booted ∧
      ∃ a, Steps (.x86 false .idle (pure ())) ⟨.prompt, prefixWorld⟩ a ∧
        a.world.machine.trace.fits = false := by
  refine ⟨⟨rfl, rfl, rfl⟩, _, .tail (steps_call Nat.one_pos rfl) ⟨.other, rfl⟩, ?_⟩
  decide +kernel

end Nemu
