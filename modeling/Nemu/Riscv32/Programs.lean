import Nemu.Risc.Programs
import Nemu.Riscv32.Correct

/-!
# Guest programs on riscv32

A hart that knows three instructions and the trap, and `cpu_exec` on the programs for it.
-/

namespace Nemu
namespace Risc
namespace Riscv32

open LittleEndian Simulation

/-! ## The architecture -/

/-- An instruction of RV32I whose word and whose data lie in memory. -/
inductive Instructs : Rv32i.Hart → Rv32i.Hart → Prop
  | intro {h : Rv32i.Hart} (i : Rv32i.Instr) (hfetch : InsidePmem pmemBase h.pc 4)
      (hword : h.readWord h.pc = i.encode)
      (hdata : ∀ a, i.address h = some a → InsidePmem pmemBase a 4) : Instructs h (i.exec h)

/-- `nemu_trap` reports what is in `a0`; any other word of the full length is refused. -/
inductive Ends : Rv32i.Hart → NEMUState → Rv32i.Hart → Prop
  | trap {h : Rv32i.Hart} (hfetch : InsidePmem pmemBase h.pc 4)
      (hword : (h.readWord h.pc).extractLsb' 0 7 = trapOpcode) :
      Ends h ⟨.nemuEnd, h.pc, h.x rA0⟩ { h with pc := h.pc + 4 }
  | invalid {h : Rv32i.Hart} (hfetch : InsidePmem pmemBase h.pc 8)
      (hlong : (h.readWord h.pc).extractLsb' 0 2 = 3)
      (hinstr : ∀ i : Rv32i.Instr, h.readWord h.pc ≠ i.encode)
      (htrap : (h.readWord h.pc).extractLsb' 0 7 ≠ trapOpcode) :
      Ends h ⟨.nemuAbort, h.pc, -1⟩ { h with pc := h.pc + 8 }

def architecture : Architecture Rv32i.Hart := { instr := Instructs, ends := Ends }

/-- No instruction is a compressed one. -/
theorem encode_long (i : Rv32i.Instr) : i.encode.extractLsb' 0 2 = 3 := by
  cases i with
  | lui rd imm => exact (lui_views rd imm).1
  | lw rd rs1 offset => exact (lw_views rd rs1 offset).1
  | sw rs1 rs2 offset => exact (sw_views rs1 rs2 offset).1

theorem architecture_implementedBy :
    architecture.ImplementedBy hart pmemBase isaExec where
  keeps := isaExec_within
  view_nemuState _ _ := rfl
  instr s c hs hinstr := by
    generalize hh : hart s = h at hinstr
    cases hinstr with
    | intro i hfetch hword hdata =>
        subst hh
        have hlow : (s.wordAt pmemBase s.cpu.pc).extractLsb' 0 2 = 3 := by
          rw [show s.wordAt pmemBase s.cpu.pc = i.encode from hword]
          exact encode_long i
        rcases (implements hs hfetch hlow).instr i hword hdata with ⟨s', hrun, hhart, -, hstate⟩
        exact ⟨_, s', hrun, hhart, hstate⟩
  ends s state c hs hends := by
    generalize hh : hart s = h at hends
    cases hends with
    | trap hfetch hword =>
        subst hh
        have hlow := (opcode1_0_of_trap hword).1
        rcases (implements hs hfetch hlow).trap hword with ⟨s', hrun, hcpu, hbus, hstate⟩
        refine ⟨_, s', hrun, ?_, hstate⟩
        rw [hart, hcpu, hbus]
        rfl
    | invalid hfetch hlong hinstr htrap =>
        subst hh
        have hfetch4 : InsidePmem pmemBase s.cpu.pc 4 := fun k hk => hfetch k (by omega)
        rcases (implements hs hfetch4 hlong).other hinstr htrap hfetch with
          ⟨s', hrun, hcpu, hbus, hstate⟩
        refine ⟨_, s', hrun, ?_, hstate⟩
        rw [hart, hcpu, hbus]
        rfl

/-! ## Programs -/

/-- The guest programs that the hart runs for `k` instructions: `cpu_exec` for as many stops where
the hart is, and for more of them ends as the program does. -/
theorem cpuExec_rv32i {s : Machine} (hs : Reachable s)
    (hstart : s.nemuState.state = .nemuStop ∨ s.nemuState.state = .nemuRunning) {k : Nat}
    {h : Rv32i.Hart} (hrun : Run Instructs k (hart s) h) :
    (∃ s', cpuExec isaExec k s = .ok none s' ∧ hart s' = h ∧
      s'.nemuState = { s.nemuState with state := .nemuStop }) ∧
    ∀ n, k < n → ∀ state h', Ends h state h' →
      ∃ s', cpuExec isaExec n s = .ok (NEMUState.message state) s' ∧ hart s' = h' ∧
        s'.nemuState = state := by
  constructor
  · rcases cpuExec_instrs architecture_implementedBy hs.boundary hstart hrun with
      ⟨s', hexec, hhart, -, hstate⟩
    exact ⟨s', hexec, hhart, hstate⟩
  · intro n hn state h' hends
    have hstate : state.state ≠ .nemuRunning := by
      cases hends <;> exact fun h => by cases h
    exact cpuExec_ends architecture_implementedBy hs.boundary hstart hrun hends hstate hn

/-! ## The built-in image -/

def isaDefaultImg : List Word :=
  [0x800002b7, 0x0002a023, 0x0002a503, 0x0000006b]

/-- The image where `load_img` puts it. -/
def defaultImgLoaded : Machine :=
  initIsa
    { cpu := ⟨fun _ => 0, 0⟩
      bus := { Bus.zero with
        pmem := memcpy (fun _ => 0) 1048576 (isaDefaultImg.flatMap fun w => bytesOf w 4) }
      s0 := 0
      ir := 0
      decinfo := ⟨0, 0, false, DecodeInfo.zero.operand, 0⟩
      nemuState := ⟨.nemuStop, 0, 0⟩
      trace := .zero }

/-- It runs for three instructions, and then into the good trap. -/
theorem cpuExec_rv32i_defaultImg :
    ∃ s', cpuExec isaExec 100 defaultImgLoaded = .ok (some (.hitGoodTrap 0x8010000c)) s' ∧
      s'.cpu.pc = 0x80100010 := by
  let h₁ := (Rv32i.Instr.lui 5 0x80000).exec (hart defaultImgLoaded)
  let h₂ := (Rv32i.Instr.sw 5 0 0).exec h₁
  let h₃ := (Rv32i.Instr.lw 10 5 0).exec h₂
  have hlui : Instructs (hart defaultImgLoaded) h₁ :=
    .intro _ (by decide) (by decide) fun a ha => by cases ha
  have hsw : Instructs h₁ h₂ := .intro _ (by decide) (by decide) fun a ha => by cases ha; decide
  have hlw : Instructs h₂ h₃ := .intro _ (by decide) (by decide) fun a ha => by cases ha; decide
  have hends : Ends h₃ ⟨.nemuEnd, h₃.pc, h₃.x rA0⟩ { h₃ with pc := h₃.pc + 4 } :=
    .trap (by decide) (by decide)
  have hmessage : NEMUState.message ⟨.nemuEnd, h₃.pc, h₃.x rA0⟩ =
      some (.hitGoodTrap 0x8010000c) := by decide
  rcases (cpuExec_rv32i (.init rfl) (.inl rfl) (.succ hlui (.succ hsw (.succ hlw (.zero _))))).2 100
    (by decide) _ _ hends with ⟨s', hexec, hhart, -⟩
  rw [hmessage] at hexec
  exact ⟨s', hexec, congrArg Rv32i.Hart.pc hhart⟩

end Riscv32
end Risc
end Nemu
