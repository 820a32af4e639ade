import Nemu.Risc.Programs
import Nemu.Mips32.Correct

/-!
# Guest programs on mips32

A processor that knows three instructions and the trap, and `cpu_exec` on the programs for it.  Every
word is one of the two, or refused.
-/

namespace Nemu
namespace Risc
namespace Mips32

open LittleEndian Simulation

/-! ## The architecture -/

/-- An instruction of MIPS I whose word and whose data lie in memory. -/
inductive Instructs : MipsI.Core → MipsI.Core → Prop
  | intro {c : MipsI.Core} (i : MipsI.Instr) (hfetch : InsidePmem pmemBase c.pc 4)
      (hword : c.readWord c.pc = i.encode)
      (hdata : ∀ a, i.address c = some a → InsidePmem pmemBase a 4) : Instructs c (i.exec c)

/-- `nemu_trap` reports what is in `v0`; any other word is refused. -/
inductive Ends : MipsI.Core → NEMUState → MipsI.Core → Prop
  | trap {c : MipsI.Core} (hfetch : InsidePmem pmemBase c.pc 4)
      (hword : (c.readWord c.pc).extractLsb' 26 6 = trapOpcode) :
      Ends c ⟨.nemuEnd, c.pc, c.gpr 2⟩ { c with pc := c.pc + 4 }
  | invalid {c : MipsI.Core} (hfetch : InsidePmem pmemBase c.pc 8)
      (hinstr : ∀ i : MipsI.Instr, c.readWord c.pc ≠ i.encode)
      (htrap : (c.readWord c.pc).extractLsb' 26 6 ≠ trapOpcode) :
      Ends c ⟨.nemuAbort, c.pc, -1⟩ { c with pc := c.pc + 8 }

def architecture : Architecture MipsI.Core := { instr := Instructs, ends := Ends }

theorem architecture_implementedBy :
    architecture.ImplementedBy core pmemBase isaExec where
  keeps := isaExec_within
  view_nemuState _ _ := rfl
  instr s c hs hinstr := by
    generalize hc : core s = c₀ at hinstr
    cases hinstr with
    | intro i hfetch hword hdata =>
        subst hc
        rcases (implements hs hfetch).instr i hword hdata with ⟨s', hrun, hcore, -, hstate⟩
        exact ⟨_, s', hrun, hcore, hstate⟩
  ends s state c hs hends := by
    generalize hc : core s = c₀ at hends
    cases hends with
    | trap hfetch hword =>
        subst hc
        rcases (implements hs hfetch).trap hword with ⟨s', hrun, hcpu, hbus, hstate⟩
        refine ⟨_, s', hrun, ?_, hstate⟩
        rw [core, hcpu, hbus]
        rfl
    | invalid hfetch hinstr htrap =>
        subst hc
        have hfetch4 : InsidePmem pmemBase s.cpu.pc 4 := fun k hk => hfetch k (by omega)
        rcases (implements hs hfetch4).other hinstr htrap hfetch with
          ⟨s', hrun, hcpu, hbus, hstate⟩
        refine ⟨_, s', hrun, ?_, hstate⟩
        rw [core, hcpu, hbus]
        rfl

/-! ## Programs -/

/-- The guest programs that the processor runs for `k` instructions: `cpu_exec` for as many stops
where the processor is, and for more of them ends as the program does. -/
theorem cpuExec_mipsI {s : Machine} (hs : Reachable s)
    (hstart : s.nemuState.state = .nemuStop ∨ s.nemuState.state = .nemuRunning) {k : Nat}
    {c : MipsI.Core} (hrun : Run Instructs k (core s) c) :
    (∃ s', cpuExec isaExec k s = .ok none s' ∧ core s' = c ∧
      s'.nemuState = { s.nemuState with state := .nemuStop }) ∧
    ∀ n, k < n → ∀ state c', Ends c state c' →
      ∃ s', cpuExec isaExec n s = .ok (NEMUState.message state) s' ∧ core s' = c' ∧
        s'.nemuState = state := by
  constructor
  · rcases cpuExec_instrs architecture_implementedBy hs.boundary hstart hrun with
      ⟨s', hexec, hcore, -, hstate⟩
    exact ⟨s', hexec, hcore, hstate⟩
  · intro n hn state c' hends
    have hstate : state.state ≠ .nemuRunning := by
      cases hends <;> exact fun h => by cases h
    exact cpuExec_ends architecture_implementedBy hs.boundary hstart hrun hends hstate hn

/-! ## The built-in image -/

def isaDefaultImg : List Word :=
  [0x3c048000, 0xac800000, 0x8c820000, 0xf0000000]

/-- The image where `load_img` puts it. -/
def defaultImgLoaded : Machine :=
  initIsa
    { cpu := ⟨fun _ => 0, 0⟩
      bus := { Bus.zero with
        pmem := memcpy (fun _ => 0) 1048576 (isaDefaultImg.flatMap fun w => bytesOf w 4) }
      s0 := 0
      ir := 0
      decinfo := ⟨0, 0, false, DecodeInfo.zero.operand, 0⟩
      nemuState := ⟨.nemuStop, 0, 0⟩
      trace := .zero }

/-- It runs for three instructions, and then into the good trap. -/
theorem cpuExec_mipsI_defaultImg :
    ∃ s', cpuExec isaExec 100 defaultImgLoaded = .ok (some (.hitGoodTrap 0x8010000c)) s' ∧
      s'.cpu.pc = 0x80100010 := by
  let c₁ := (MipsI.Instr.lui 0 4 0x8000).exec (core defaultImgLoaded)
  let c₂ := (MipsI.Instr.sw 4 0 0).exec c₁
  let c₃ := (MipsI.Instr.lw 4 2 0).exec c₂
  have hlui : Instructs (core defaultImgLoaded) c₁ :=
    .intro _ (by decide) (by decide) fun a ha => by cases ha
  have hsw : Instructs c₁ c₂ := .intro _ (by decide) (by decide) fun a ha => by cases ha; decide
  have hlw : Instructs c₂ c₃ := .intro _ (by decide) (by decide) fun a ha => by cases ha; decide
  have hends : Ends c₃ ⟨.nemuEnd, c₃.pc, c₃.gpr 2⟩ { c₃ with pc := c₃.pc + 4 } :=
    .trap (by decide) (by decide)
  have hmessage : NEMUState.message ⟨.nemuEnd, c₃.pc, c₃.gpr 2⟩ =
      some (.hitGoodTrap 0x8010000c) := by decide
  rcases (cpuExec_mipsI (.init rfl) (.inl rfl) (.succ hlui (.succ hsw (.succ hlw (.zero _))))).2 100
    (by decide) _ _ hends with ⟨s', hexec, hcore, -⟩
  rw [hmessage] at hexec
  exact ⟨s', hexec, congrArg MipsI.Core.pc hcore⟩

end Mips32
end Risc
end Nemu
