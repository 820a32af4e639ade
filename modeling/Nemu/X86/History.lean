import Nemu.X86.Processor

/-!
# What an instruction depends on

Registers, `pmem`, `nemu_state` and the strings of the trace are all that passes from one instruction
to the next: two machines that agree on these, with anything else left behind by what they have
executed before, do the same from there on.
-/

namespace Nemu

open LittleEndian StateRules

/-! ## Runs in pmem -/

/-- The machines agree on what a program can see, registers, `pmem` and `nemu_state`, and on the
strings of the trace. -/
structure Machine.Agree (s t : Machine) : Prop where
  cpu : t.cpu = s.cpu
  pmem : ∀ i < pmemSize, t.bus.pmem i = s.bus.pmem i
  nemuState : t.nemuState = s.nemuState
  trace : s.trace.Same t.trace

/-- The machine without devices, and with other bytes behind the array `pmem`. -/
def Machine.alone (s : Machine) (behind : Nat → Byte) : Machine :=
  { s with
    bus := { s.bus with
      io := { s.bus.io with mmioMaps := [] }
      pmem := fun i => if i < pmemSize then s.bus.pmem i else behind i } }

/-- `exec_once`, and `asm_print` behind it where `cpu_exec` still calls it. -/
def execInstr (printed : Bool) : Exec Unit := do
  let _ ← execOnce
  if printed then asmPrint else pure ()

def execInstrs : List Bool → Exec Unit
  | [] => pure ()
  | printed :: rest => do
      execInstr printed
      execInstrs rest

/-- The instruction completes with all accesses in `pmem`: it completes alike without any device, and
whatever stands behind the array. -/
structure CompletesInPmem (printed : Bool) (s s' : Machine) : Prop where
  run : execInstr printed s = .ok ⟨⟩ s'
  alone : ∀ behind, ∃ s₁, execInstr printed (s.alone behind) = .ok ⟨⟩ s₁ ∧ s'.Agree s₁

/-- One after the other. -/
inductive RunsInPmem : List Bool → Machine → Machine → Prop
  | nil (s : Machine) : RunsInPmem [] s s
  | cons {printed : Bool} {rest : List Bool} {s s₁ s₂ : Machine}
      (hfirst : CompletesInPmem printed s s₁) (hrest : RunsInPmem rest s₁ s₂) :
      RunsInPmem (printed :: rest) s s₂

/-! ## History -/

theorem Machine.Agree.trans {s t u : Machine} (h : s.Agree t) (h' : t.Agree u) : s.Agree u where
  cpu := h'.cpu.trans h.cpu
  pmem i hi := (h'.pmem i hi).trans (h.pmem i hi)
  nemuState := h'.nemuState.trans h.nemuState
  trace := ⟨h'.trace.bytebuf.trans h.trace.bytebuf, h'.trace.asmbuf.trans h.trace.asmbuf,
    h'.trace.fits.trans h.trace.fits⟩

theorem execInstr_sim (printed : Bool) :
    Sim SameStart (execInstr printed) (execInstr printed) (Alike (Knows ∅)) :=
  execOnce_sim.andThen fun _ => by
    cases printed with
    | true => exact asmPrint_sim
    | false => exact Sim.pure _

theorem Machine.Boundary.execInstr {s s' : Machine} {printed : Bool} {u : Unit} (h : s.Boundary)
    (hrun : Nemu.execInstr printed s = .ok u s') : s'.Boundary := by
  rcases bind_eq_ok.1 hrun with ⟨npc, s₁, honce, hprint⟩
  have h₁ := h.execOnce honce
  cases printed with
  | true =>
      cases hprint
      exact ⟨h₁.map, h₁.isJmp, h₁.isOperandSize16⟩
  | false =>
      cases hprint
      exact h₁

/-- An instruction that completes does the same from every state that agrees. -/
theorem execInstr_agree {printed : Bool} {s s' t : Machine} (hs : s.Boundary) (ht : t.Boundary)
    (h : s.Agree t) (hrun : CompletesInPmem printed s s') :
    ∃ t', execInstr printed t = .ok ⟨⟩ t' ∧ s'.Agree t' := by
  -- the first machine, with no devices and with what the second one has behind `pmem`
  rcases hrun.alone t.bus.pmem with ⟨s₁, hrun₁, hagree⟩
  have hpmem : t.bus.pmem = (s.alone t.bus.pmem).bus.pmem := by
    funext i
    by_cases hi : i < pmemSize
    · exact (h.pmem i hi).trans (if_pos hi).symm
    · exact (if_neg hi).symm
  have hstart : SameStart (s.alone t.bus.pmem) t := by
    refine ⟨h.cpu, ⟨hpmem, ht.map.trans hs.map.symm, rfl⟩, h.nemuState, h.trace,
      congrArg CPUState.pc h.cpu, ht.isJmp.trans hs.isJmp.symm,
      ht.isOperandSize16.trans hs.isOperandSize16.symm, ?_, ?_, ?_, ?_,
      fun op => ⟨?_, ?_, ?_, ?_⟩⟩ <;> exact fun hl => hl.elim
  rcases execInstr_sim printed _ _ _ _ hstart hrun₁ with ⟨⟨⟩, t', hrun', -, hknows⟩
  refine ⟨t', hrun', hagree.trans ⟨hknows.cpu, fun i _ => ?_, hknows.nemuState, hknows.trace⟩⟩
  rw [hknows.bus.pmem]

/-- By induction on the instructions: nothing else passes from one to the next. -/
theorem execInstrs_agree {l : List Bool} {s s' t : Machine} (hs : s.Boundary) (ht : t.Boundary)
    (h : s.Agree t) (hrun : RunsInPmem l s s') :
    execInstrs l s = .ok ⟨⟩ s' ∧ s'.Boundary ∧
      ∃ t', execInstrs l t = .ok ⟨⟩ t' ∧ t'.Boundary ∧ s'.Agree t' := by
  induction hrun generalizing t with
  | nil s => exact ⟨rfl, hs, t, rfl, ht, h⟩
  | cons hfirst hrest ih =>
      rcases execInstr_agree hs ht h hfirst with ⟨t₁, hrun', hagree⟩
      rcases ih (hs.execInstr hfirst.run) (ht.execInstr hrun') hagree with
        ⟨hsrun, hs', t', htrun, ht', hagree'⟩
      exact ⟨(bind_ok hfirst.run).trans hsrun, hs', t', (bind_ok hrun').trans htrun, ht', hagree'⟩

/-! ## Movs -/

namespace Processor

/-- The same registers, and the same bytes of `pmem`. -/
structure Agree (p q : Processor) : Prop where
  cpu : q.cpu = p.cpu
  pmem : ∀ a < pmemSize, q.pmem a = p.pmem a

theorem ofBytes_agree {f g : ByteLoc → Byte} (pc : Word) (hreg : ∀ i k, g (.reg i k) = f (.reg i k))
    (hmem : ∀ a < pmemSize, g (.mem a) = f (.mem a)) : (ofBytes f pc).Agree (ofBytes g pc) where
  cpu := by simp only [ofBytes, hreg]
  pmem := hmem

variable {p q : Processor}

theorem Agree.byteAt_reg (h : p.Agree q) (i : Fin 8) (k : Fin 4) :
    q.byteAt (.reg i k) = p.byteAt (.reg i k) :=
  congrArg (fun cpu : CPUState => byteOf (cpu.gpr i) k) h.cpu

theorem Agree.byteAt_place (h : p.Agree q) {pl : Place} {w j : Nat} (hin : pl.InPmem w)
    (hj : j < w) : q.byteAt (pl.byteLoc w j) = p.byteAt (pl.byteLoc w j) := by
  cases pl with
  | reg r =>
      rw [Place.byteLoc]
      by_cases hw : w = 1
      · rw [if_pos hw]
        exact h.byteAt_reg _ _
      · rw [if_neg hw]
        exact h.byteAt_reg _ _
  | mem addr =>
      have hinside : addr.toNat + w ≤ pmemSize := hin
      exact h.pmem _ (by omega)

theorem Agree.byteIn (h : p.Agree q) {src : Source} {w j : Nat} (hin : src.InPmem w)
    (hj : j < w) : src.byteIn q w j = src.byteIn p w j := by
  cases src with
  | place pl => exact h.byteAt_place hin hj
  | const v => rfl

end Processor

theorem Mov.exec_agree {p q : Processor} (h : p.Agree q) {i : Mov} {k : Nat}
    (hsrc : (i.source p.cpu).InPmem (i.width k)) : (i.exec k p).Agree (i.exec k q) := by
  rw [Mov.exec, Mov.exec, h.cpu]
  have hsource : ∀ b j, i.goesTo k p.cpu b = some j →
      (i.source p.cpu).byteIn q (i.width k) j = (i.source p.cpu).byteIn p (i.width k) j := by
    intro b j hgoes
    exact h.byteIn hsrc (List.mem_range.1 (List.mem_of_find?_eq_some hgoes))
  -- a byte of the destination is one of the source, any other is as before
  refine Processor.ofBytes_agree _ (fun r j => ?_) fun a ha => ?_
  · cases hgoes : i.goesTo k p.cpu (.reg r j) with
    | some l => exact hsource _ _ hgoes
    | none => exact h.byteAt_reg r j
  · cases hgoes : i.goesTo k p.cpu (.mem a) with
    | some l => exact hsource _ _ hgoes
    | none => exact h.pmem a ha

/-- An instruction in `pmem` does the same whatever stands behind it. -/
theorem Processor.Instructs.agree {p p₁ q : Processor} (h : p.Instructs p₁) (hpq : p.Agree q) :
    ∃ q₁, q.Instructs q₁ ∧ p₁.Agree q₁ := by
  cases h with
  | mov i k hlen hcode hin hsrc hdest =>
      have hcode' : Holds q.pmem q.cpu.pc.toNat (i.encode k) := by
        intro j hj
        rw [hpq.cpu, hpq.pmem _ (by omega)]
        exact hcode j hj
      refine ⟨i.exec k q, .mov i k hlen hcode' ?_ ?_ ?_, Mov.exec_agree hpq hsrc⟩ <;> rw [hpq.cpu]
      · exact hin
      · exact hsrc
      · exact hdest

theorem Processor.Instructs.execInstr {s : Machine} {p : Processor} (hs : s.Boundary)
    (htrace : s.trace.Cleared) (h : s.processor.Instructs p) :
    ∃ s', Nemu.execInstr true s = .ok ⟨⟩ s' ∧ s'.processor = p ∧ s'.nemuState = s.nemuState ∧
      s'.trace.Cleared := by
  rcases h.execOnce hs htrace with ⟨npc, s₁, hrun, hp, hstate, -⟩
  exact ⟨_, (bind_ok hrun).trans rfl, hp, hstate, Trace.cleared_ofBuffers (fits_of_execOnce hrun)⟩

/-- The instructions of a processor complete in `pmem`. -/
theorem Processor.Instructs.completesInPmem {s : Machine} {p : Processor} (hs : s.Boundary)
    (htrace : s.trace.Cleared) (h : s.processor.Instructs p) :
    ∃ s', CompletesInPmem true s s' ∧ s'.processor = p ∧ s'.trace.Cleared := by
  rcases h.execInstr hs htrace with ⟨s', hrun, rfl, hstate, hclear⟩
  refine ⟨s', ⟨hrun, fun behind => ?_⟩, rfl, hclear⟩
  have halone : s.processor.Agree (s.alone behind).processor := ⟨rfl, fun a ha => if_pos ha⟩
  rcases h.agree halone with ⟨q, hq, hagree⟩
  rcases hq.execInstr (s := s.alone behind) ⟨hs.map, hs.isJmp, hs.isOperandSize16⟩ htrace with
    ⟨s₁, hrun₁, rfl, hstate₁, hclear₁⟩
  refine ⟨s₁, hrun₁, hagree.cpu, hagree.pmem, hstate₁.trans hstate.symm, ?_⟩
  exact ⟨hclear₁.bytebuf.trans hclear.bytebuf.symm, hclear₁.asmbuf.trans hclear.asmbuf.symm,
    hclear₁.fits.trans hclear.fits.symm⟩

/-- `66 c7 05 00 10 00 00 34 12` and `8b 0d 00 10 00 00` at address 0: `movw $0x1234,0x1000` and
`movl 0x1000,%ecx`. -/
def storeAndLoad : Machine :=
  { Machine.zero with
    bus := { Bus.zero with
      pmem := memcpy (fun _ => 0) 0
        ((Mov.immToRm false ⟨0x05, 0, 0x1000⟩ 0x1234).encode 1 ++
          (Mov.rmToReg false ⟨0x0d, 0, 0x1000⟩).encode 0) } }

/-- What earlier instructions may have left behind. -/
def storeAndLoadLater : Machine :=
  { storeAndLoad with
    s0 := 1, s1 := 2, ir := 3
    decinfo := { DecodeInfo.zero with
      opcode := 0xc7, seqPc := 7, extOpcode := 5,
      operand := fun _ => ⟨.mem, 2, 0x1000, 0xffff, ['$', '1']⟩ } }

theorem execInstrs_agree_storeAndLoad :
    ∃ s' t', execInstrs [true, true] storeAndLoad = .ok ⟨⟩ s' ∧
      execInstrs [true, true] storeAndLoadLater = .ok ⟨⟩ t' ∧ s'.Agree t' ∧
      s'.cpu.gpr rEcx = 0x1234 := by
  let i := Mov.immToRm false ⟨0x05, 0, 0x1000⟩ 0x1234
  let j := Mov.rmToReg false ⟨0x0d, 0, 0x1000⟩
  have hmem : ∀ w ≤ 4, (Place.mem 0x1000).InPmem w := fun w hw => by
    have hsize : pmemSize = 134217728 := rfl
    change 0x1000 + w ≤ pmemSize
    omega
  have hfirst : storeAndLoad.processor.Instructs (i.exec 1 storeAndLoad.processor) :=
    .mov i 1 (by decide) (by unfold Holds; decide) (by decide) trivial (hmem 2 (by decide))
  have hsecond : (i.exec 1 storeAndLoad.processor).Instructs
      (j.exec 0 (i.exec 1 storeAndLoad.processor)) :=
    .mov j 0 (by decide) (by unfold Holds; decide) (by decide) (hmem 4 (by decide)) trivial
  rcases hfirst.completesInPmem ⟨rfl, rfl, rfl⟩ ⟨rfl, rfl, rfl⟩ with ⟨s₁, hrun₁, hp₁, hclear₁⟩
  rw [← hp₁] at hsecond
  have hs₁ : s₁.Boundary := Machine.Boundary.execInstr ⟨rfl, rfl, rfl⟩ hrun₁.run
  rcases hsecond.completesInPmem hs₁ hclear₁ with ⟨s₂, hrun₂, hp₂, -⟩
  rcases @execInstrs_agree [true, true] storeAndLoad s₂ storeAndLoadLater ⟨rfl, rfl, rfl⟩
    ⟨rfl, rfl, rfl⟩ ⟨rfl, fun _ _ => rfl, rfl, ⟨rfl, rfl, rfl⟩⟩
    (.cons hrun₁ (.cons hrun₂ (.nil s₂))) with ⟨hs, -, t', ht, -, hagree⟩
  refine ⟨s₂, t', hs, ht, hagree, ?_⟩
  rw [hp₁] at hp₂
  have hecx := congrArg (fun p : Processor => p.cpu.gpr rEcx) hp₂
  exact hecx.trans (by decide)

end Nemu
