import Nemu.Risc.Invariant
import Nemu.Mips32.Fields

/-!
# mips32 end to end

One `exec_once` on each word that can stand at `pc`: `lui`, `lw` and `sw` do what the manual says,
the trap ends the program, and every other opcode aborts it.
-/

namespace Nemu
namespace Risc
namespace Mips32

open LittleEndian StateRules
open MipsI (immediateType)

def pmemBase : Word := Isa.mips32.pmemBase

/-! ## Decoding -/

theorem regsl_length : regsl.length = 32 := rfl

section Decode

variable {s : Machine} (hzero : s.cpu.gpr 0 = 0) {rs rt : Fin 32}
  (hrs : Instr.rs s.decinfo.instr = regWord rs) (hrt : Instr.rt s.decinfo.instr = regWord rt)

include hzero hrs hrt

/-- The source register is decoded, and not used. -/
theorem decodeIU_run :
    ∃ ops, decodeIU s = .ok ⟨⟩ (s.withOperands ops) ∧
      (ops .src2).val = Instr.imm s.decinfo.instr ∧ (ops .dest).word = regWord rt := by
  rcases decodeOpR_decodes regsl_length .src rs true (s := s) hzero with ⟨ops₁, hrun₁, hc₁⟩
  rcases decodeOpI_decodes .src2 (Instr.imm s.decinfo.instr) (s.withOperands ops₁) with
    ⟨ops₂, hrun₂, hc₂⟩
  rcases decodeOpR_decodes regsl_length .dest rt false (s := s.withOperands ops₂) hzero with
    ⟨ops₃, hrun₃, hc₃⟩
  rcases printDop_decodes .src2 ('0' :: 'x' :: hexText (Instr.imm s.decinfo.instr).toNat)
    (s.withOperands ops₃) with ⟨ops₄, hrun₄, hc₄⟩
  rw [← hrs] at hrun₁
  rw [← hrt] at hrun₃
  -- printing the number leaves the contents as they are
  have hcontents : contents ops₄ = Function.update (contents ops₂) .dest _ := hc₄.trans hc₃
  have hsrc2 := (contents_of_ne (o := .src2) (by decide) hcontents).trans (contents_self hc₂)
  have hdest := contents_self hcontents
  refine ⟨ops₄, ?_, congrArg Prod.snd hsrc2, congrArg Prod.fst hdest⟩
  rw [decodeIU, bind_ok (get_run s)]
  exact (bind_ok hrun₁).trans ((bind_ok hrun₂).trans ((bind_ok hrun₃).trans hrun₄))

/-- Both memory instructions: the address in the source, the register in the destination. -/
theorem decodeMem_run (loadVal : Bool) :
    ∃ ops, (do
        decodeAddr regsl (Instr.rs s.decinfo.instr) (Instr.simm s.decinfo.instr)
        decodeOpR regsl .dest (Instr.rt s.decinfo.instr) loadVal) s =
          .ok ⟨⟩ (s.withOperands ops) ∧
      (ops .src).word = s.cpu.gpr rs + Instr.simm s.decinfo.instr ∧
      (ops .dest).word = regWord rt ∧ (loadVal = true → (ops .dest).val = s.cpu.gpr rt) := by
  rcases decodeAddr_decodes regsl_length rs (Instr.simm s.decinfo.instr) hzero with
    ⟨ops₁, hrun₁, hc₁⟩
  rcases decodeOpR_decodes regsl_length .dest rt loadVal (s := s.withOperands ops₁) hzero with
    ⟨ops₂, hrun₂, hc₂⟩
  rw [← hrs] at hrun₁
  rw [← hrt] at hrun₂
  -- the destination is decoded last, and leaves the address in the source
  have hsrc := (contents_of_ne (o := .src) (by decide) hc₂).trans (contents_self hc₁)
  have hdest := contents_self hc₂
  refine ⟨ops₂, (bind_ok hrun₁).trans hrun₂, congrArg Prod.fst hsrc, congrArg Prod.fst hdest, ?_⟩
  rintro rfl
  exact congrArg Prod.snd hdest

theorem decodeLd_run :
    ∃ ops, decodeLd s = .ok ⟨⟩ (s.withOperands ops) ∧
      (ops .src).word = s.cpu.gpr rs + Instr.simm s.decinfo.instr ∧
      (ops .dest).word = regWord rt := by
  rcases decodeMem_run hzero hrs hrt false with ⟨ops, hrun, hsrc, hdest, -⟩
  refine ⟨ops, ?_, hsrc, hdest⟩
  rw [decodeLd, bind_ok (get_run s)]
  exact hrun

theorem decodeSt_run :
    ∃ ops, decodeSt s = .ok ⟨⟩ (s.withOperands ops) ∧
      (ops .src).word = s.cpu.gpr rs + Instr.simm s.decinfo.instr ∧
      (ops .dest).val = s.cpu.gpr rt := by
  rcases decodeMem_run hzero hrs hrt true with ⟨ops, hrun, hsrc, -, hval⟩
  refine ⟨ops, ?_, hsrc, hval rfl⟩
  rw [decodeSt, bind_ok (get_run s)]
  exact hrun

end Decode

/-! ## Dispatch -/

section Dispatch

variable {s : Machine}

theorem execLui_run {rt : Fin 32} {v : Word} (hdest : (s.decinfo.operand .dest).word = regWord rt)
    (hsrc2 : (s.decinfo.operand .src2).val = v) :
    ∃ t, execLui s = .ok ⟨⟩ { s with
      s0 := v <<< 16
      cpu := { s.cpu with gpr := s.cpu.write rt (v <<< 16) }
      trace := t } := by
  let s₁ : Machine := { s with s0 := v <<< 16 }
  have hstore : rtlSr (s.decinfo.operand .dest).word (v <<< 16) s₁ =
      .ok ⟨⟩ { s₁ with cpu := { s₁.cpu with gpr := s₁.cpu.write rt (v <<< 16) } } := by
    rw [hdest]
    exact rtlSr_run rt _ s₁
  have hrun : execLui s = printAsmTemplate3 ['l', 'u', 'i']
      { s₁ with cpu := { s₁.cpu with gpr := s₁.cpu.write rt (v <<< 16) } } := by
    rw [execLui, bind_ok (getOperand_run .src2 s), hsrc2]
    refine (bind_ok (modify_run _ s)).trans ((bind_ok (getOperand_run .dest s₁)).trans ?_)
    exact bind_ok hstore
  rw [hrun]
  exact printAsmTemplate3_run _ _

theorem idex_decode {n width : Nat} (d : DHelper) (x : EHelper) {s₁ : Machine}
    (h : d.run s = .ok ⟨⟩ s₁) : idex (n + 1) ⟨some d, x, width⟩ s = x.run (idex n) s₁ := bind_ok h

theorem idex_plain {n : Nat} {e : Entry} (h : e.decode = none) (s : Machine) :
    idex (n + 1) e s = e.execute.run (idex n) s := by
  have hnone : runDecode e s = .ok ⟨⟩ s := by
    rw [runDecode, h]
    rfl
  exact bind_ok hnone

/-- The machine in which the first entry is dispatched. -/
def fetched (s : Machine) (w : Word) (width : Nat) (t : Trace) : Machine :=
  { s with decinfo := { s.decinfo with seqPc := s.cpu.pc + 4, instr := w, width }, trace := t }

theorem isaExec_run (hs : s.Boundary pmemBase) (hin : InsidePmem pmemBase s.cpu.pc 4) {w : Word}
    (hw : s.wordAt pmemBase s.cpu.pc = w) {entry : Entry}
    (hentry : opcodeTable (Instr.opcode w) = entry) :
    ∃ t, isaExec { s with decinfo := { s.decinfo with seqPc := s.cpu.pc } } =
      idex 2 entry (fetched s w entry.width t) := by
  rcases instrFetch_run (s := { s with decinfo := { s.decinfo with seqPc := s.cpu.pc } }) hs.map hin
    with ⟨t, hfetch⟩
  change instrFetch 4 _ = .ok (s.wordAt pmemBase s.cpu.pc) _ at hfetch
  rw [hw] at hfetch
  refine ⟨t, ?_⟩
  rw [isaExec, bind_ok hfetch]
  refine (bind_ok (modify_run _ _)).trans ?_
  rw [hentry]
  exact (bind_ok (modify_run _ _)).trans rfl

/-! ## One case for each kind of word -/

theorem idex_lui (hzero : s.cpu.gpr 0 = 0) (rs rt : BitVec 5) (imm : BitVec 16) (t : Trace) :
    Ensures (idex 2 ⟨some .IU, .lui, 0⟩) (fetched s (MipsI.Instr.lui rs rt imm).encode 0 t)
      fun _ s' =>
        Executed s (s.cpu.write rt.toFin (imm ++ 0#16)) s.bus s.nemuState (s.cpu.pc + 4) s' := by
  let s₁ := fetched s (MipsI.Instr.lui rs rt imm).encode 0 t
  rcases decodeIU_run (s := s₁) hzero (rs_immediateType _ rs rt imm) (rt_immediateType _ rs rt imm)
    with ⟨ops, hdecode, hsrc2, hdest⟩
  have himm : (ops .src2).val = imm.setWidth 32 := hsrc2.trans (imm_immediateType _ rs rt imm)
  rcases execLui_run (s := s₁.withOperands ops) hdest himm with ⟨t', hexec⟩
  rw [imm_shift] at hexec
  exact .of_ok ((idex_decode .IU .lui hdecode).trans hexec) ⟨rfl, rfl, rfl, rfl, rfl⟩

theorem idex_lw (hs : s.Boundary pmemBase) (base rt : BitVec 5) (offset : BitVec 16) (t : Trace)
    (hin : InsidePmem pmemBase (s.cpu.gpr base.toFin + offset.signExtend 32) 4) :
    Ensures (idex 2 ⟨some .ld, .ld, 4⟩) (fetched s (MipsI.Instr.lw base rt offset).encode 4 t)
      fun _ s' =>
        Executed s (s.cpu.write rt.toFin
            (s.wordAt pmemBase (s.cpu.gpr base.toFin + offset.signExtend 32)))
          s.bus s.nemuState (s.cpu.pc + 4) s' := by
  let s₁ := fetched s (MipsI.Instr.lw base rt offset).encode 4 t
  rcases decodeLd_run (s := s₁) hs.zero (rs_immediateType _ base rt offset)
    (rt_immediateType _ base rt offset) with ⟨ops, hdecode, hsrc, hdest⟩
  have haddr : (ops .src).word = s.cpu.gpr base.toFin + offset.signExtend 32 :=
    hsrc.trans (congrArg _ (simm_immediateType _ base rt offset))
  rcases execLd_run (s := s₁.withOperands ops) hs.map rfl haddr hdest hin with ⟨t', hexec⟩
  exact .of_ok ((idex_decode .ld .ld hdecode).trans hexec) ⟨rfl, rfl, rfl, rfl, rfl⟩

theorem idex_sw (hs : s.Boundary pmemBase) (base rt : BitVec 5) (offset : BitVec 16) (t : Trace)
    (hin : InsidePmem pmemBase (s.cpu.gpr base.toFin + offset.signExtend 32) 4) :
    Ensures (idex 2 ⟨some .st, .st, 4⟩) (fetched s (MipsI.Instr.sw base rt offset).encode 4 t)
      fun _ s' =>
        Executed s s.cpu.gpr (s.storeWord pmemBase (s.cpu.gpr base.toFin + offset.signExtend 32)
            (s.cpu.gpr rt.toFin))
          s.nemuState (s.cpu.pc + 4) s' := by
  let s₁ := fetched s (MipsI.Instr.sw base rt offset).encode 4 t
  rcases decodeSt_run (s := s₁) hs.zero (rs_immediateType _ base rt offset)
    (rt_immediateType _ base rt offset) with ⟨ops, hdecode, hsrc, hdest⟩
  have haddr : (ops .src).word = s.cpu.gpr base.toFin + offset.signExtend 32 :=
    hsrc.trans (congrArg _ (simm_immediateType _ base rt offset))
  rcases execSt_run (s := s₁.withOperands ops) hs.map rfl haddr hdest hin with ⟨t', hexec⟩
  exact .of_ok ((idex_decode .st .st hdecode).trans hexec) ⟨rfl, rfl, rfl, rfl, rfl⟩

theorem idex_nemuTrap (w : Word) (t : Trace) :
    Ensures (idex 2 ⟨none, .nemuTrap, 0⟩) (fetched s w 0 t) fun _ s' =>
      Executed s s.cpu.gpr s.bus.skipRef ⟨.nemuEnd, s.cpu.pc, s.cpu.gpr rV0⟩ (s.cpu.pc + 4) s' := by
  rcases execNemuTrap_run rV0 (fetched s w 0 t) with ⟨t', hexec⟩
  exact .of_ok ((idex_plain rfl _).trans hexec) ⟨rfl, rfl, rfl, rfl, rfl⟩

/-! ## Invalid words -/

/-- The opcode of the trap, which the default image `isa_default_img` ends with. -/
def trapOpcode : BitVec 6 := 0x3c

/-- Without an instruction the first table refers to the second one or has nothing. -/
theorem opcodeTable_invalid {op : BitVec 6} (hinstr : op ∉ instrOpcodes) (htrap : op ≠ trapOpcode) :
    opcodeTable op = ⟨none, .special, 0⟩ ∨ opcodeTable op = empty := by
  unfold opcodeTable
  split
  case h_1 => exact .inl rfl
  case h_2 h =>
    have hop : op = 0x0f := BitVec.eq_of_toNat_eq h
    exact absurd (by rw [hop]; decide) hinstr
  case h_3 h =>
    have hop : op = 0x23 := BitVec.eq_of_toNat_eq h
    exact absurd (by rw [hop]; decide) hinstr
  case h_4 h =>
    have hop : op = 0x2b := BitVec.eq_of_toNat_eq h
    exact absurd (by rw [hop]; decide) hinstr
  case h_5 h => exact absurd (BitVec.eq_of_toNat_eq h) htrap
  case h_6 => exact .inr rfl

/-- The second table is reached in the machine of the first, and is empty. -/
theorem idex_special (w : Word) (t : Trace) :
    idex 2 ⟨none, .special, 0⟩ (fetched s w 0 t) = execInv (fetched s w 0 t) := by
  rw [idex_plain rfl]
  exact (bind_ok (get_run _)).trans (idex_plain rfl _)

theorem idex_inv (hs : s.Boundary pmemBase) (hin : InsidePmem pmemBase s.cpu.pc 8) {entry : Entry}
    (hentry : entry = ⟨none, .special, 0⟩ ∨ entry = empty) (w : Word) (t : Trace) :
    Ensures (idex 2 entry) (fetched s w entry.width t) fun _ s' =>
      Executed s s.cpu.gpr s.bus ⟨.nemuAbort, s.cpu.pc, -1⟩ (s.cpu.pc + 8) s' := by
  rcases execInv_run (s := fetched s w 0 t) hs.map hin with ⟨t', hexec⟩
  rcases hentry with rfl | rfl
  · exact .of_ok ((idex_special w t).trans hexec) ⟨rfl, rfl, rfl, rfl, rfl⟩
  · exact .of_ok ((idex_plain rfl _).trans hexec) ⟨rfl, rfl, rfl, rfl, rfl⟩

end Dispatch

/-! ## exec_once -/

/-- The processor that the guest program runs on. -/
def core (s : Machine) : MipsI.Core :=
  ⟨fun r => s.cpu.gpr r.toFin, s.cpu.pc, s.bus.guestByte pmemBase⟩

/-- What `exec_once` does in `s`, by the word at `pc`. -/
structure Implements (s : Machine) : Prop where
  instr : ∀ i : MipsI.Instr, s.wordAt pmemBase s.cpu.pc = i.encode →
    (∀ a, i.address (core s) = some a → InsidePmem pmemBase a 4) →
    ∃ s', execOnce s = .ok (s.cpu.pc + 4) s' ∧ core s' = i.exec (core s) ∧
      s'.bus = { s.bus with pmem := s'.bus.pmem } ∧ s'.nemuState = s.nemuState
  trap : (s.wordAt pmemBase s.cpu.pc).extractLsb' 26 6 = trapOpcode →
    ∃ s', execOnce s = .ok (s.cpu.pc + 4) s' ∧ s'.cpu = { s.cpu with pc := s.cpu.pc + 4 } ∧
      s'.bus = s.bus.skipRef ∧ s'.nemuState = ⟨.nemuEnd, s.cpu.pc, s.cpu.gpr rV0⟩
  other : (∀ i : MipsI.Instr, s.wordAt pmemBase s.cpu.pc ≠ i.encode) →
    (s.wordAt pmemBase s.cpu.pc).extractLsb' 26 6 ≠ trapOpcode → InsidePmem pmemBase s.cpu.pc 8 →
    ∃ s', execOnce s = .ok (s.cpu.pc + 8) s' ∧ s'.cpu = { s.cpu with pc := s.cpu.pc + 8 } ∧
      s'.bus = s.bus ∧ s'.nemuState = ⟨.nemuAbort, s.cpu.pc, -1⟩

section ExecOnce

variable {s : Machine}

/-- From the dispatch of the first entry to `exec_once`. -/
theorem execOnce_of_idex (hs : s.Boundary pmemBase) (hin : InsidePmem pmemBase s.cpu.pc 4)
    {w : Word} (hw : s.wordAt pmemBase s.cpu.pc = w) {entry : Entry}
    (hentry : opcodeTable (Instr.opcode w) = entry)
    {gpr : Fin 32 → Word} {bus : Bus} {state : NEMUState} {npc : Word}
    (h : ∀ t, Ensures (idex 2 entry) (fetched s w entry.width t) fun _ s' =>
      Executed s gpr bus state npc s') :
    ∃ s', execOnce s = .ok npc s' ∧ s'.cpu = ⟨gpr, npc⟩ ∧ s'.bus = bus ∧ s'.nemuState = state := by
  rcases isaExec_run hs hin hw hentry with ⟨t, hisa⟩
  refine execOnce_executed hs.isJmp ?_
  rcases h t with ⟨u, s', hrun, hexecuted⟩
  exact ⟨u, s', hisa.trans hrun, hexecuted⟩

/-- A written register as the guest sees it. -/
theorem gpr_write (rt : BitVec 5) (v : Word) :
    (fun r : BitVec 5 => s.cpu.write rt.toFin v r.toFin) = (core s).writeReg rt v := by
  funext r
  rw [CPUState.write, MipsI.Core.writeReg]
  by_cases hzero : rt = 0
  · have hval : rt.toFin.val = 0 := by rw [hzero]; rfl
    rw [if_pos hval, if_pos hzero]
    rfl
  · have hval : rt.toFin.val ≠ 0 := fun h => hzero (BitVec.eq_of_toNat_eq h)
    rw [if_neg hval, if_neg hzero]
    by_cases hr : r = rt
    · rw [hr, Function.update_self, Function.update_self]
    · have hfin : r.toFin ≠ rt.toFin := fun h => hr (BitVec.toFin_inj.1 h)
      rw [Function.update_of_ne hfin, Function.update_of_ne hr]
      rfl

/-- A stored word as the guest sees it. -/
theorem guestByte_storeWord {a : Word} (v : Word) (hin : InsidePmem pmemBase a 4) :
    (s.storeWord pmemBase a v).guestByte pmemBase = (core s).writeWord a v := by
  rw [Machine.storeWord, (validWrite hin).guestByte_after]
  funext b
  change (if decide ((b - a).toNat < 4) = true then byteOf v (b - a).toNat
    else s.bus.guestByte pmemBase b) = _
  simp only [decide_eq_true_eq]
  rfl

theorem execOnce_instr (hs : s.Boundary pmemBase) (hin : InsidePmem pmemBase s.cpu.pc 4)
    (i : MipsI.Instr) (hw : s.wordAt pmemBase s.cpu.pc = i.encode)
    (haddr : ∀ a, i.address (core s) = some a → InsidePmem pmemBase a 4) :
    ∃ s', execOnce s = .ok (s.cpu.pc + 4) s' ∧ core s' = i.exec (core s) ∧
      s'.bus = { s.bus with pmem := s'.bus.pmem } ∧ s'.nemuState = s.nemuState := by
  cases i with
  | lui rs rt imm =>
      have hentry := congrArg opcodeTable (opcode_immediateType 0b001111 rs rt imm)
      rcases execOnce_of_idex hs hin hw hentry (idex_lui hs.zero rs rt imm) with
        ⟨s', hrun, hcpu, hbus, hstate⟩
      refine ⟨s', hrun, ?_, ?_, hstate⟩
      · rw [core, hcpu, hbus, gpr_write]
        rfl
      · rw [hbus]
  | lw base rt offset =>
      have hdata : InsidePmem pmemBase (s.cpu.gpr base.toFin + offset.signExtend 32) 4 :=
        haddr _ rfl
      have hentry := congrArg opcodeTable (opcode_immediateType 0b100011 base rt offset)
      rcases execOnce_of_idex hs hin hw hentry fun t => idex_lw hs base rt offset t hdata with
        ⟨s', hrun, hcpu, hbus, hstate⟩
      refine ⟨s', hrun, ?_, ?_, hstate⟩
      · rw [core, hcpu, hbus, gpr_write]
        rfl
      · rw [hbus]
  | sw base rt offset =>
      have hdata : InsidePmem pmemBase (s.cpu.gpr base.toFin + offset.signExtend 32) 4 :=
        haddr _ rfl
      have hentry := congrArg opcodeTable (opcode_immediateType 0b101011 base rt offset)
      rcases execOnce_of_idex hs hin hw hentry fun t => idex_sw hs base rt offset t hdata with
        ⟨s', hrun, hcpu, hbus, hstate⟩
      refine ⟨s', hrun, ?_, ?_, hstate⟩
      · rw [core, hcpu, hbus, guestByte_storeWord _ hdata]
        rfl
      · rw [hbus]
        rfl

theorem execOnce_trap (hs : s.Boundary pmemBase) (hin : InsidePmem pmemBase s.cpu.pc 4)
    (hop : Instr.opcode (s.wordAt pmemBase s.cpu.pc) = trapOpcode) :
    ∃ s', execOnce s = .ok (s.cpu.pc + 4) s' ∧ s'.cpu = { s.cpu with pc := s.cpu.pc + 4 } ∧
      s'.bus = s.bus.skipRef ∧ s'.nemuState = ⟨.nemuEnd, s.cpu.pc, s.cpu.gpr rV0⟩ := by
  have hentry : opcodeTable (Instr.opcode (s.wordAt pmemBase s.cpu.pc)) = ⟨none, .nemuTrap, 0⟩ := by
    rw [hop]
    rfl
  exact execOnce_of_idex hs hin rfl hentry (idex_nemuTrap _)

theorem execOnce_other (hs : s.Boundary pmemBase) (hin : InsidePmem pmemBase s.cpu.pc 8)
    (hinstr : ∀ i : MipsI.Instr, s.wordAt pmemBase s.cpu.pc ≠ i.encode)
    (htrap : Instr.opcode (s.wordAt pmemBase s.cpu.pc) ≠ trapOpcode) :
    ∃ s', execOnce s = .ok (s.cpu.pc + 8) s' ∧ s'.cpu = { s.cpu with pc := s.cpu.pc + 8 } ∧
      s'.bus = s.bus ∧ s'.nemuState = ⟨.nemuAbort, s.cpu.pc, -1⟩ := by
  have hfetch : InsidePmem pmemBase s.cpu.pc 4 := fun k hk => hin k (by omega)
  have hop : Instr.opcode (s.wordAt pmemBase s.cpu.pc) ∉ instrOpcodes := by
    intro hop
    rcases encode_of_opcode hop with ⟨i, hi⟩
    exact hinstr i hi
  exact execOnce_of_idex hs hfetch rfl rfl (idex_inv hs hin (opcodeTable_invalid hop htrap) _)

theorem implements (hs : s.Boundary pmemBase) (hin : InsidePmem pmemBase s.cpu.pc 4) :
    Implements s where
  instr := execOnce_instr hs hin
  trap := execOnce_trap hs hin
  other hinstr htrap hin8 := execOnce_other hs hin8 hinstr htrap

end ExecOnce

/-! ## Runs -/

/-- `init_isa` -/
def initIsa (s : Machine) : Machine :=
  { s with
    bus := { s.bus with pmemMap := registerPmem pmemBase }
    cpu := { gpr := fun i => if i.val = 0 then 0 else s.cpu.gpr i, pc := Isa.mips32.pcStart } }

/-- The states between and behind instructions.  What the monitor and the devices do in between
leaves `cpu` and `decinfo` alone. -/
inductive Reachable : Machine → Prop
  | init {s : Machine} : s.decinfo.isJmp = false → Reachable (initIsa s)
  | exec {s : Machine} : Reachable s → Reachable (final (execOnce s))
  | monitor {s s' : Machine} : Reachable s → s'.cpu = s.cpu → s'.decinfo = s.decinfo →
      s'.bus.pmemMap = s.bus.pmemMap → Reachable s'

theorem decodeMem_within (rs simm rt : Word) (loadVal : Bool) :
    Within Keeps (do
      decodeAddr regsl rs simm
      decodeOpR regsl .dest rt loadVal) :=
  (decodeAddr_within regsl rs simm).bind fun _ => decodeOpR_within regsl .dest rt loadVal

theorem runDecode_within (e : Entry) : Within Keeps (runDecode e) := by
  unfold runDecode
  cases e.decode with
  | none => exact Within.pure _
  | some d =>
      cases d with
      | IU =>
          refine Within.get.bind fun s => (decodeOpR_within regsl .src _ true).bind fun _ => ?_
          refine (decodeOpI_within .src2 _).bind fun _ => ?_
          exact (decodeOpR_within regsl .dest _ false).bind fun _ => printDop_within .src2 _
      | ld => exact Within.get.bind fun s => decodeMem_within _ _ _ false
      | st => exact Within.get.bind fun s => decodeMem_within _ _ _ true

theorem execLui_within : Within Keeps execLui := by
  refine (getOperand_within .src2).bind fun src2 => ?_
  refine (Within.modify fun _ => ⟨rfl, rfl, rfl⟩).bind fun _ => ?_
  refine (getOperand_within .dest).bind fun dest => ?_
  exact (rtlSr_within dest.word _).bind fun _ => printAsmTemplate3_within _

theorem idex_within (fuel : Nat) (e : Entry) : Within Keeps (idex fuel e) := by
  induction fuel generalizing e with
  | zero => exact Within.throw _
  | succ fuel ih =>
      refine (runDecode_within e).bind fun _ => ?_
      cases e.execute with
      | inv => exact execInv_within
      | special => exact Within.get.bind fun s => ih _
      | lui => exact execLui_within
      | ld => exact execLd_within
      | st => exact execSt_within
      | nemuTrap => exact execNemuTrap_within rV0

theorem isaExec_within : Within Keeps isaExec := by
  refine (instrFetch_within 4).bind fun _ => (Within.modify fun _ => ⟨rfl, rfl, rfl⟩).bind fun _ => ?_
  exact (Within.modify fun _ => ⟨rfl, rfl, rfl⟩).bind fun _ => idex_within 2 _

theorem Reachable.boundary {s : Machine} (h : Reachable s) : s.Boundary pmemBase := by
  induction h with
  | init hjmp => exact ⟨rfl, hjmp, rfl⟩
  | exec _ ih => exact ih.execOnce isaExec_within
  | monitor _ hcpu hdecinfo hmap ih =>
      refine ⟨hmap.trans ih.map, ?_, ?_⟩
      · rw [hdecinfo]
        exact ih.isJmp
      · rw [hcpu]
        exact ih.zero

/-- mips32 on every word, and register 0 in every state. -/
theorem execOnce_mipsI :
    (∀ s : Machine, s.Boundary pmemBase → InsidePmem pmemBase s.cpu.pc 4 → Implements s) ∧
    ∀ s : Machine, Reachable s → s.Boundary pmemBase ∧ s.cpu.gpr 0 = 0 :=
  ⟨fun _ hs hin => implements hs hin, fun _ h => ⟨h.boundary, h.boundary.zero⟩⟩

/-- The first word of `isa_default_img` at the address where it is loaded. -/
def defaultImgMachine : Machine :=
  initIsa
    { cpu := ⟨fun _ => 0, 0⟩
      bus := { Bus.zero with pmem := memcpy (fun _ => 0) 1048576 (bytesOf 0x3c048000 4) }
      s0 := 0
      ir := 0
      decinfo := ⟨0, 0, false, DecodeInfo.zero.operand, 0⟩
      nemuState := ⟨.nemuStop, 0, 0⟩
      trace := .zero }

/-- `lui a0, 0x8000` -/
theorem execOnce_mipsI_lui :
    ∃ s', execOnce defaultImgMachine = .ok 0x80100004 s' ∧ s'.cpu.gpr 4 = 0x80000000 ∧
      s'.nemuState = ⟨.nemuStop, 0, 0⟩ := by
  have hs : defaultImgMachine.Boundary pmemBase := ⟨rfl, rfl, rfl⟩
  have hin : InsidePmem pmemBase defaultImgMachine.cpu.pc 4 := by decide
  have hword : defaultImgMachine.wordAt pmemBase defaultImgMachine.cpu.pc = 0x3c048000 := by decide
  have hcode : (0x3c048000 : Word) = (MipsI.Instr.lui 0 4 0x8000).encode := by decide
  rcases (execOnce_mipsI.1 _ hs hin).instr (.lui 0 4 0x8000) (hword.trans hcode)
    (fun _ h => by cases h) with ⟨s', hrun, hcore, -, hstate⟩
  exact ⟨s', hrun, congrArg (fun c => c.gpr 4) hcore, hstate⟩

end Mips32
end Risc
end Nemu
