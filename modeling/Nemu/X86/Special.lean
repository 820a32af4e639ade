import Nemu.X86.MovCorrect

/-!
# nemu_trap and invalid opcodes

The two instructions of `src/isa/x86/exec/special.c` that end the guest program, for every machine
in which they stand in `pmem`.
-/

namespace Nemu

open LittleEndian StateRules

/-- `exec_once` around a helper that fetches `n` bytes, leaves `seq_pc` at `pc`, and neither jumps nor
writes a register. -/
theorem execOnce_of_spec {s : Machine} (htrace : s.Printed) {pc : Word} {state : NEMUState}
    {bus : Bus} {n : Nat} (hn : n ≤ 26)
    (h : Ensures isaExec { s with decinfo := { s.decinfo with seqPc := s.cpu.pc } } fun _ s₁ =>
      s₁.nemuState = state ∧ s₁.cpu = s.cpu ∧ s₁.bus = bus ∧ s₁.decinfo.seqPc = pc ∧
        s₁.decinfo.isJmp = false ∧ s₁.trace.fetched = s.trace.fetched + n) :
    ∃ npc s', execOnce s = .ok npc s' ∧ s'.nemuState = state ∧ s'.cpu = { s.cpu with pc } ∧
      s'.bus = bus := by
  rcases h with ⟨u, s₁, hrun, hstate, hcpu, hbus, rfl, hjmp, hfetched⟩
  have hstart : Machine.Printed { s with decinfo := { s.decinfo with seqPc := s.cpu.pc } } :=
    ⟨htrace.trace, htrace.texts⟩
  have hfits := (hstart.fits_iff (isaExec_traceRel.ok hrun) hfetched).2 hn
  have honce := execOnce_of_isaExec hrun hjmp
  rw [if_pos hfits] at honce
  refine ⟨_, _, honce, hstate, ?_, hbus⟩
  change CPUState.mk s₁.cpu.gpr s₁.decinfo.seqPc = _
  rw [hcpu]

theorem execNemuTrap_spec (s : Machine) :
    Ensures execNemuTrap s fun _ s' => s'.nemuState = ⟨.nemuEnd, s.cpu.pc, s.cpu.eax⟩ ∧
      s'.cpu = s.cpu ∧ s'.bus = s.bus.skipRef ∧ s'.decinfo = s.decinfo ∧
      s'.trace.fetched = s.trace.fetched := by
  have hskip : onBus difftestSkipRef s = .ok ⟨⟩ { s with bus := s.bus.skipRef } := rfl
  refine Ensures.step hskip (Ensures.step (get_run _) (Ensures.step (modify_run _ _) ?_))
  exact Ensures.of_ok (modify_run _ _) ⟨rfl, rfl, rfl, rfl, rfl⟩

/-- `nemu_trap` ends the program with `%eax` as the result, and asks to be skipped by the
reference design. -/
theorem execOnce_nemuTrap {s : Machine} (hs : s.Boundary) (htrace : s.Printed)
    (hcode : s.bus.pmem s.cpu.pc.toNat = 0xd6) (hin : s.cpu.pc.toNat < pmemSize) :
    ∃ npc s', execOnce s = .ok npc s' ∧
      s'.nemuState = ⟨.nemuEnd, s.cpu.pc, s.cpu.eax⟩ ∧
      s'.cpu = { s.cpu with pc := s.cpu.pc + 1 } ∧
      s'.bus = s.bus.skipRef := by
  have hbytes : Holds s.bus.pmem s.cpu.pc.toNat [0xd6] := by
    intro i hi
    have hzero : i = 0 := by simpa using hi
    subst hzero
    exact hcode
  have hfetch : Machine.Fetches { s with decinfo := { s.decinfo with seqPc := s.cpu.pc } }
      [0xd6] := ⟨hs.map, hbytes, hin⟩
  refine execOnce_of_spec htrace (n := 1) (by decide) ?_
  refine (fetchEntry_spec hfetch).bind fun e s₁ h₁ => ?_
  rcases h₁ with ⟨rfl, hdec, -, -⟩
  refine Ensures.step (pure_run _ s₁) ((execNemuTrap_spec s₁).mono fun _ s' h' => ?_)
  rcases h' with ⟨hstate, hcpu, hbus, hdecinfo, hfetched⟩
  rw [hdec.cpu] at hstate
  rw [hdec.bus] at hbus
  rw [hdecinfo]
  exact ⟨hstate, hcpu.trans hdec.cpu, hbus, hdec.seqPc, hdec.isJmp.trans hs.isJmp,
    hfetched.trans hdec.fetched⟩

/-- The message of `exec_inv` fetches eight bytes from the opcode on. -/
theorem execInv_spec {s : Machine} {l m : List Byte}
    (h : Machine.Fetches { s with decinfo := { s.decinfo with seqPc := s.cpu.pc } } (l ++ m))
    (hl : l.length = 4) (hm : m.length = 4) :
    Ensures execInv s fun _ s' => s'.nemuState = ⟨.nemuAbort, s.cpu.pc, -1⟩ ∧ s'.cpu = s.cpu ∧
      s'.bus = s.bus ∧ s'.decinfo.seqPc = s.cpu.pc + 8 ∧ s'.decinfo.isJmp = s.decinfo.isJmp ∧
      s'.trace.fetched = s.trace.fetched + 8 := by
  refine Ensures.step (get_run s) (Ensures.step (modify_run _ _) ?_)
  have hfour := instrFetch_spec h.take (by omega) (by omega)
  rw [hl] at hfour
  refine hfour.bind fun _ s₂ h₂ => ?_
  have hfour' := instrFetch_spec (h.rest (hl ▸ h₂.2.1)) (by omega) (by omega)
  rw [hm] at hfour'
  refine hfour'.bind fun _ s₃ h₃ => ?_
  have hdec := h₂.2.1.trans h₃.2.1
  exact Ensures.step (modify_run _ s₃)
    (Ensures.of_ok (modify_run _ _)
      ⟨rfl, hdec.cpu, hdec.bus, hdec.seqPc, hdec.isJmp, hdec.fetched⟩)

/-- An invalid opcode aborts the program. -/
theorem execOnce_inv {s : Machine} (hs : s.Boundary) (htrace : s.Printed) {b : Byte} {l m : List Byte}
    (hempty : opcodeTable b.toNat = empty) (hl : (b :: l).length = 4) (hm : m.length = 4)
    (hcode : Holds s.bus.pmem s.cpu.pc.toNat (b :: l ++ m))
    (hin : s.cpu.pc.toNat + 8 ≤ pmemSize) :
    ∃ npc s', execOnce s = .ok npc s' ∧
      s'.nemuState = ⟨.nemuAbort, s.cpu.pc, -1⟩ ∧
      s'.cpu = { s.cpu with pc := s.cpu.pc + 8 } ∧ s'.bus = s.bus := by
  have hlen : (b :: l ++ m).length = 8 := by rw [List.length_append, hl, hm]
  have hbytes : Machine.Fetches { s with decinfo := { s.decinfo with seqPc := s.cpu.pc } }
      (b :: l ++ m) := ⟨hs.map, hcode, by rwa [hlen]⟩
  refine execOnce_of_spec htrace (n := 9) (by decide) ?_
  have hfirst := Machine.Fetches.take (l := [b]) (m := l ++ m) hbytes
  refine (fetchEntry_spec hfirst).bind fun e s₁ h₁ => ?_
  rcases h₁ with ⟨rfl, hdec, -, -⟩
  rw [hempty]
  refine Ensures.step (pure_run _ s₁) ?_
  -- `seq_pc` is back at the opcode
  have hback : Machine.Fetches { s₁ with decinfo := { s₁.decinfo with seqPc := s₁.cpu.pc } }
      (b :: l ++ m) := by
    rw [hdec.cpu]
    exact ⟨hdec.bus ▸ hbytes.map, hdec.bus ▸ hbytes.bytes, hbytes.inside⟩
  refine (execInv_spec hback hl hm).mono fun _ s' h' => ?_
  rcases h' with ⟨hstate, hcpu, hbus, hpc, hjmp, hfetched⟩
  rw [hdec.cpu] at hstate hcpu hpc
  refine ⟨hstate, hcpu, hbus.trans hdec.bus, hpc, hjmp.trans (hdec.isJmp.trans hs.isJmp), ?_⟩
  -- the opcode has been fetched once before the message
  rw [hfetched, hdec.fetched]

end Nemu
