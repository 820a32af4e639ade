import Nemu.X86.TwoRuns

/-!
# One mov

`exec_once` around a `mov`.  The instruction prints its bytes, three characters each, and the two
operands it has decoded; what an earlier instruction has left as the text of an operand is overwritten
before it is printed.
-/

namespace Nemu

open LittleEndian StateRules

section ExecOnce

variable {s : Machine} {i : Mov} {k : Nat}

/-! ## The trace -/

/-- The machine at the start of an instruction, with no devices and no operands. -/
def Machine.plain (s : Machine) : Machine :=
  { s with
    bus := { s.bus with io := { s.bus.io with mmioMaps := [] } }
    decinfo := { s.decinfo with operand := DecodeInfo.zero.operand } }

/-- The instruction does to the trace what it does to the one of the plain machine. -/
theorem isaExec_plain (s : Machine) : ∀ u s₁,
    isaExec { s.plain with decinfo := { s.plain.decinfo with seqPc := s.cpu.pc } } = .ok u s₁ →
    ∃ s₂, isaExec { s with decinfo := { s.decinfo with seqPc := s.cpu.pc } } = .ok u s₂ ∧
      s₁.trace.Same s₂.trace := by
  intro u s₁ hrun
  have hstart : Knows ∅ { s.plain with decinfo := { s.plain.decinfo with seqPc := s.cpu.pc } }
      { s with decinfo := { s.decinfo with seqPc := s.cpu.pc } } := by
    refine ⟨rfl, ⟨rfl, rfl, rfl⟩, rfl, ⟨rfl, rfl, rfl⟩, rfl, rfl, rfl, ?_, ?_, ?_, ?_,
      fun op => ⟨?_, ?_, ?_, ?_⟩⟩ <;> exact fun hl => hl.elim
  rcases isaExec_sim _ _ _ _ hstart hrun with ⟨u', s₂, hrun', rfl, hknows⟩
  exact ⟨s₂, hrun', hknows.trace⟩

/-- The bytes of the instruction fit if there are at most 26 of them. -/
theorem isaExec_fits_iff (hs : s.Boundary) (htrace : s.trace.Cleared)
    (hcode : Holds s.bus.pmem s.cpu.pc.toNat (i.encode k))
    (hin : s.cpu.pc.toNat + (i.encode k).length ≤ pmemSize)
    (hsrc : (i.source s.cpu).InPmem (i.width k)) (hdest : (i.dest s.cpu).InPmem (i.width k))
    {u : Unit} {s₂ : Machine}
    (hisa : isaExec { s with decinfo := { s.decinfo with seqPc := s.cpu.pc } } = .ok u s₂) :
    s₂.trace.fits = true ↔ (i.encode k).length ≤ 26 := by
  have hplain : s.plain.Boundary := ⟨hs.map, hs.isJmp, hs.isOperandSize16⟩
  rcases isaExec_executes hplain hcode hin hsrc hdest with ⟨v, s₁, hrun, hexec⟩
  have hstart : Machine.Printed
      { s.plain with decinfo := { s.plain.decinfo with seqPc := s.cpu.pc } } :=
    ⟨htrace, fun _ => Nat.zero_le _⟩
  have hfits := hstart.fits_iff (isaExec_traceRel.ok hrun) (i.length_encode k ▸ hexec.fetched)
  rcases isaExec_plain s v s₁ hrun with ⟨s₃, hrun', hsame⟩
  cases hrun'.symm.trans hisa
  rw [hsame.fits]
  exact hfits

/-! ## exec_once -/

theorem execOnce_executes (hs : s.Boundary) (htrace : s.trace.Cleared)
    (hcode : Holds s.bus.pmem s.cpu.pc.toNat (i.encode k))
    (hin : s.cpu.pc.toNat + (i.encode k).length ≤ pmemSize)
    (hsrc : (i.source s.cpu).InPmem (i.width k)) (hdest : (i.dest s.cpu).InPmem (i.width k)) :
    ∃ s₁, i.Executes { s with decinfo := { s.decinfo with seqPc := s.cpu.pc } } k (i.width k) s₁ ∧
      execOnce s =
        if (i.encode k).length ≤ 26 then .ok s₁.decinfo.seqPc s₁.stepped
        else .error .bounds s₁.stepped := by
  rcases isaExec_executes hs hcode hin hsrc hdest with ⟨u, s₁, hisa, hexec⟩
  refine ⟨s₁, hexec, ?_⟩
  rw [execOnce_of_isaExec hisa (hexec.isJmp.trans hs.isJmp)]
  exact if_congr (isaExec_fits_iff hs htrace hcode hin hsrc hdest hisa) rfl rfl

/-- What one `exec_once` owes to a `mov`: the bytes of the destination become those of the source,
all other bytes and the run state stay, and `pc` moves behind the instruction. -/
structure Mov.Moves (i : Mov) (k : Nat) (s s' : Machine) : Prop where
  written : ∀ j < i.width k, s'.byteAt ((i.dest s.cpu).byteLoc (i.width k) j) =
    (i.source s.cpu).byte s (i.width k) j
  others : ∀ b, (∀ j < i.width k, b ≠ (i.dest s.cpu).byteLoc (i.width k) j) →
    s'.byteAt b = s.byteAt b
  bus : s'.bus = { s.bus with pmem := s'.bus.pmem }
  nemuState : s'.nemuState = s.nemuState
  pc : s'.cpu.pc = s.cpu.pc + BitVec.ofNat 32 (i.encode k).length
  boundary : s'.Boundary

theorem Mov.Executes.moves {s₁ : Machine} {npc : Word} (hs : s.Boundary)
    (h : i.Executes { s with decinfo := { s.decinfo with seqPc := s.cpu.pc } } k (i.width k) s₁)
    (hrun : execOnce s = .ok npc s₁.stepped) : i.Moves k s s₁.stepped where
  written j hj :=
    calc _ = s₁.byteAt ((i.dest s.cpu).byteLoc (i.width k) j) := byteAt_congr rfl rfl _
      _ = _ := h.written j hj
      _ = (i.source s.cpu).byte s (i.width k) j := Source.byte_congr rfl rfl _ _ _
  others b hb :=
    calc _ = s₁.byteAt b := byteAt_congr rfl rfl b
      _ = _ := h.others b hb
      _ = s.byteAt b := byteAt_congr rfl rfl b
  bus := h.bus
  nemuState := h.nemuState
  pc := by
    rw [i.length_encode]
    exact h.seqPc
  boundary := hs.execOnce hrun

/-- `exec_once` does with a `mov` in `pmem` what the manual says if and only if the instruction has
at most 26 bytes.  From 27 on their text does not fit in `log_bytebuf`. -/
theorem execOnce_mov_iff (hs : s.Boundary) (htrace : s.trace.Cleared) (i : Mov) (k : Nat)
    (hcode : Holds s.bus.pmem s.cpu.pc.toNat (i.encode k))
    (hin : s.cpu.pc.toNat + (i.encode k).length ≤ pmemSize)
    (hsrc : (i.source s.cpu).InPmem (i.width k)) (hdest : (i.dest s.cpu).InPmem (i.width k)) :
    (∃ npc s', execOnce s = .ok npc s' ∧ i.Moves k s s') ↔ (i.encode k).length ≤ 26 := by
  rcases execOnce_executes hs htrace hcode hin hsrc hdest with ⟨s₁, hexec, hrun⟩
  by_cases hlen : (i.encode k).length ≤ 26
  · rw [if_pos hlen] at hrun
    exact iff_of_true ⟨_, _, hrun, hexec.moves hs hrun⟩ hlen
  · rw [if_neg hlen] at hrun
    refine iff_of_false ?_ hlen
    rintro ⟨npc, s', hok, -⟩
    cases hrun.symm.trans hok

end ExecOnce

/-- `66 8b 4c 24 02` loads `%cx` from `0x2(%esp)`. -/
theorem execOnce_mov_iff_load :
    let i := Mov.rmToReg false ⟨0x4c, 0x24, 2⟩
    ∃ npc s', execOnce (i.loaded 1) = .ok npc s' ∧ s'.cpu.pc = 5 ∧
      s'.byteAt (.reg rEcx 0) = 0x4c ∧ s'.byteAt (.reg rEcx 1) = 0x24 := by
  intro i
  have hsrc : (Place.mem 2).InPmem 2 := by
    unfold Place.InPmem
    decide
  rcases (execOnce_mov_iff (s := i.loaded 1) ⟨rfl, rfl, rfl⟩ ⟨rfl, rfl, rfl⟩
    i 1 (i.loaded_holds 1) (by decide) hsrc trivial).2 (by decide) with ⟨npc, s', hrun, hmoves⟩
  exact ⟨npc, s', hrun, hmoves.pc, hmoves.written 0 (by decide), hmoves.written 1 (by decide)⟩

/-- `89 c0` behind 25 prefixes. -/
theorem execOnce_mov_overruns :
    let i := Mov.regToRm false ⟨0xc0, 0, 0⟩
    Holds (i.loaded 25).bus.pmem 0 (i.encode 25) ∧ (i.encode 25).length = 27 ∧
      ¬ ∃ npc s', execOnce (i.loaded 25) = .ok npc s' := by
  intro i
  refine ⟨i.loaded_holds 25, by decide, ?_⟩
  rintro ⟨npc, s', hok⟩
  rcases execOnce_executes (s := i.loaded 25) ⟨rfl, rfl, rfl⟩ ⟨rfl, rfl, rfl⟩
    (i.loaded_holds 25) (by decide) trivial trivial with ⟨s₁, -, hrun⟩
  rw [if_neg (by decide)] at hrun
  cases hrun.symm.trans hok

end Nemu
