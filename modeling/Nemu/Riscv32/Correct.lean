import Nemu.Risc.Invariant
import Nemu.Riscv32.Fields

/-!
# riscv32 end to end

One `exec_once` on each word that can stand at `pc`: an instruction of RV32I does what the manual
says, the trap ends the program, and every other word aborts it.
-/

namespace Nemu
namespace Risc
namespace Riscv32

open LittleEndian StateRules

def pmemBase : Word := Isa.riscv32.pmemBase

/-! ## Decoding -/

theorem regsl_length : regsl.length = 32 := rfl

theorem rd_eq (w : Word) : Instr.rd w = regWord (fieldReg w 7) := by
  rw [Instr.rd, ← setWidth_regField, regField_fieldReg]

theorem rs1_eq (w : Word) : Instr.rs1 w = regWord (fieldReg w 15) := by
  rw [Instr.rs1, ← setWidth_regField, regField_fieldReg]

theorem rs2_eq (w : Word) : Instr.rs2 w = regWord (fieldReg w 20) := by
  rw [Instr.rs2, ← setWidth_regField, regField_fieldReg]

section Decode

variable {s : Machine} (hzero : s.cpu.gpr 0 = 0)

include hzero in
theorem decodeU_run :
    ∃ ops, decodeU s = .ok ⟨⟩ (s.withOperands ops) ∧
      (ops .src).val = Instr.imm31_12 s.decinfo.instr <<< 12 ∧
      (ops .dest).word = Instr.rd s.decinfo.instr := by
  let v := Instr.imm31_12 s.decinfo.instr <<< 12
  rcases decodeOpI_decodes .src v s with ⟨ops₁, hrun₁, hc₁⟩
  rcases decodeOpR_decodes regsl_length .dest (fieldReg s.decinfo.instr 7) false
    (s := s.withOperands ops₁) hzero with ⟨ops₂, hrun₂, hc₂⟩
  rcases printDop_decodes .src ('0' :: 'x' :: hexText (Instr.imm31_12 s.decinfo.instr).toNat)
    (s.withOperands ops₂) with ⟨ops₃, hrun₃, hc₃⟩
  rw [← rd_eq] at hrun₂ hc₂
  -- printing the number leaves the contents as they are
  have hcontents : contents ops₃ = Function.update (contents ops₁) .dest _ := hc₃.trans hc₂
  have hsrc : contents ops₃ .src = (v, v) :=
    (contents_of_ne (by decide) hcontents).trans (contents_self hc₁)
  have hdest := contents_self hcontents
  refine ⟨ops₃, ?_, congrArg Prod.snd hsrc, congrArg Prod.fst hdest⟩
  rw [decodeU, bind_ok (get_run s)]
  exact (bind_ok hrun₁).trans ((bind_ok hrun₂).trans hrun₃)

include hzero in
theorem decodeLd_run :
    ∃ ops, decodeLd s = .ok ⟨⟩ (s.withOperands ops) ∧
      (ops .src).word =
        s.cpu.gpr (fieldReg s.decinfo.instr 15) + Instr.simm11_0 s.decinfo.instr ∧
      (ops .dest).word = Instr.rd s.decinfo.instr := by
  rcases decodeAddr_decodes regsl_length (fieldReg s.decinfo.instr 15)
    (Instr.simm11_0 s.decinfo.instr) hzero with ⟨ops₁, hrun₁, hc₁⟩
  rcases decodeOpR_decodes regsl_length .dest (fieldReg s.decinfo.instr 7) false
    (s := s.withOperands ops₁) hzero with ⟨ops₂, hrun₂, hc₂⟩
  rw [← rs1_eq] at hrun₁
  rw [← rd_eq] at hrun₂ hc₂
  -- the destination is decoded last, and leaves the address in the source
  have hsrc := (contents_of_ne (o := .src) (by decide) hc₂).trans (contents_self hc₁)
  have hdest := contents_self hc₂
  refine ⟨ops₂, ?_, congrArg Prod.fst hsrc, congrArg Prod.fst hdest⟩
  rw [decodeLd, bind_ok (get_run s)]
  exact (bind_ok hrun₁).trans hrun₂

include hzero in
theorem decodeSt_run :
    ∃ ops, decodeSt s = .ok ⟨⟩ (s.withOperands ops) ∧
      (ops .src).word = s.cpu.gpr (fieldReg s.decinfo.instr 15) +
        ((Instr.simm11_5 s.decinfo.instr <<< 5) ||| Instr.imm4_0 s.decinfo.instr) ∧
      (ops .dest).val = s.cpu.gpr (fieldReg s.decinfo.instr 20) := by
  rcases decodeAddr_decodes regsl_length (fieldReg s.decinfo.instr 15)
    ((Instr.simm11_5 s.decinfo.instr <<< 5) ||| Instr.imm4_0 s.decinfo.instr) hzero with
    ⟨ops₁, hrun₁, hc₁⟩
  rcases decodeOpR_decodes regsl_length .dest (fieldReg s.decinfo.instr 20) true
    (s := s.withOperands ops₁) hzero with ⟨ops₂, hrun₂, hc₂⟩
  rw [← rs1_eq] at hrun₁
  rw [← rs2_eq] at hrun₂
  have hsrc := (contents_of_ne (o := .src) (by decide) hc₂).trans (contents_self hc₁)
  have hdest := contents_self hc₂
  refine ⟨ops₂, ?_, congrArg Prod.fst hsrc, congrArg Prod.snd hdest⟩
  rw [decodeSt, bind_ok (get_run s)]
  exact (bind_ok hrun₁).trans hrun₂

end Decode

/-! ## Dispatch -/

section Dispatch

variable {s : Machine}

theorem execLui_run {rd : Fin 32} {v : Word} (hdest : (s.decinfo.operand .dest).word = regWord rd)
    (hsrc : (s.decinfo.operand .src).val = v) :
    ∃ t, execLui s = .ok ⟨⟩ { s with
      cpu := { s.cpu with gpr := s.cpu.write rd v }
      trace := t } := by
  have hstore : rtlSr (s.decinfo.operand .dest).word (s.decinfo.operand .src).val s =
      .ok ⟨⟩ { s with cpu := { s.cpu with gpr := s.cpu.write rd v } } := by
    rw [hdest, hsrc]
    exact rtlSr_run rd v s
  have hrun : execLui s = printAsmTemplate2 ['l', 'u', 'i']
      { s with cpu := { s.cpu with gpr := s.cpu.write rd v } } := by
    rw [execLui, bind_ok (getOperand_run .dest s)]
    exact (bind_ok (getOperand_run .src s)).trans (bind_ok hstore)
  rw [hrun]
  exact printAsmTemplate2_run _ _

theorem idex_decode {n width : Nat} (d : DHelper) (x : EHelper) {s₁ : Machine}
    (h : d.run s = .ok ⟨⟩ s₁) : idex (n + 1) ⟨some d, x, width⟩ s = x.run (idex n) s₁ := bind_ok h

theorem idex_plain {n : Nat} {e : Entry} (h : e.decode = none) (s : Machine) :
    idex (n + 1) e s = e.execute.run (idex n) s := by
  have hnone : runDecode e s = .ok ⟨⟩ s := by
    rw [runDecode, h]
    rfl
  exact bind_ok hnone

/-- The second table has no decode helpers. -/
theorem execTable_run {table : BitVec 3 → Entry} {e : Entry}
    (he : table (Instr.funct3 s.decinfo.instr) = e) (hdecode : e.decode = none) :
    execTable (idex 1) table s =
      e.execute.run (idex 0) { s with decinfo := { s.decinfo with width := e.width } } := by
  rw [execTable, bind_ok (get_run s), he]
  exact (bind_ok (modify_run _ s)).trans (idex_plain hdecode _)

/-- From the first table to the second: a decode helper, and what the second entry executes. -/
theorem idex_table (d : DHelper) (x : EHelper) (width : Nat) {table : BitVec 3 → Entry} {e : Entry}
    {s₁ : Machine} (hd : d.run s = .ok ⟨⟩ s₁) (hx : x.run (idex 1) = execTable (idex 1) table)
    (he : table (Instr.funct3 s₁.decinfo.instr) = e) (hdecode : e.decode = none) :
    idex 2 ⟨some d, x, width⟩ s =
      e.execute.run (idex 0) { s₁ with decinfo := { s₁.decinfo with width := e.width } } := by
  rw [idex_decode d x hd, hx]
  exact execTable_run he hdecode

/-- The machine in which the first entry is dispatched. -/
def fetched (s : Machine) (w : Word) (t : Trace) : Machine :=
  { s with decinfo := { s.decinfo with seqPc := s.cpu.pc + 4, instr := w }, trace := t }

theorem isaExec_run (hs : s.Boundary pmemBase) (hin : InsidePmem pmemBase s.cpu.pc 4) {w : Word}
    (hw : s.wordAt pmemBase s.cpu.pc = w) (hlow : Instr.opcode1_0 w = 3) :
    ∃ t, isaExec { s with decinfo := { s.decinfo with seqPc := s.cpu.pc } } =
      idex 2 (opcodeTable (Instr.opcode6_2 w)) (fetched s w t) := by
  rcases instrFetch_run (s := { s with decinfo := { s.decinfo with seqPc := s.cpu.pc } }) hs.map hin
    with ⟨t, hfetch⟩
  -- the low bits of every 32-bit instruction
  have hassert : ∀ u : Machine, (cAssert (decide (Instr.opcode1_0 w = 3)) : Exec PUnit) u =
      .ok ⟨⟩ u := by
    intro u
    rw [decide_eq_true hlow]
    rfl
  change instrFetch 4 _ = .ok (s.wordAt pmemBase s.cpu.pc) _ at hfetch
  rw [hw] at hfetch
  refine ⟨t, ?_⟩
  rw [isaExec, bind_ok hfetch]
  refine (bind_ok (modify_run _ _)).trans ((bind_ok (hassert _)).trans rfl)

/-! ## One case for each kind of word -/

theorem idex_lui (hzero : s.cpu.gpr 0 = 0) (rd : Fin 32) (imm : BitVec 20) (t : Trace) :
    let w := (Rv32i.Instr.lui rd imm).encode
    Ensures (idex 2 (opcodeTable (Instr.opcode6_2 w))) (fetched s w t) fun _ s' =>
      Executed s (s.cpu.write rd (imm ++ 0#12)) s.bus s.nemuState (s.cpu.pc + 4) s' := by
  intro w
  rcases lui_views rd imm with ⟨-, hop, hrd, himm⟩
  have hentry : opcodeTable (Instr.opcode6_2 w) = ⟨some .U, .lui, 0⟩ := by
    rw [hop]
    rfl
  rcases decodeU_run (s := fetched s w t) hzero with ⟨ops, hdecode, hsrc, hdest⟩
  rcases execLui_run (s := (fetched s w t).withOperands ops) (hdest.trans hrd) (hsrc.trans himm)
    with ⟨t', hexec⟩
  rw [hentry]
  exact .of_ok ((idex_decode .U .lui hdecode).trans hexec) ⟨rfl, rfl, rfl, rfl, rfl⟩

theorem idex_lw (hs : s.Boundary pmemBase) (rd rs1 : Fin 32) (offset : BitVec 12) (t : Trace)
    (hin : InsidePmem pmemBase (s.cpu.gpr rs1 + offset.signExtend 32) 4) :
    let w := (Rv32i.Instr.lw rd rs1 offset).encode
    Ensures (idex 2 (opcodeTable (Instr.opcode6_2 w))) (fetched s w t) fun _ s' =>
      Executed s (s.cpu.write rd (s.wordAt pmemBase (s.cpu.gpr rs1 + offset.signExtend 32)))
        s.bus s.nemuState (s.cpu.pc + 4) s' := by
  intro w
  rcases lw_views rd rs1 offset with ⟨-, hop, hfunct, hrd, hrs1, himm⟩
  have hentry : opcodeTable (Instr.opcode6_2 w) = ⟨some .ld, .load, 0⟩ := by
    rw [hop]
    rfl
  have hload : loadTable (Instr.funct3 w) = ⟨none, .ld, 4⟩ := by
    rw [hfunct]
    rfl
  -- the register numbers are those of the encoding
  have hbase : fieldReg w 15 = rs1 := regWord_inj ((rs1_eq w).symm.trans hrs1)
  rcases decodeLd_run (s := fetched s w t) hs.zero with ⟨ops, hdecode, hsrc, hdest⟩
  change (ops .src).word = s.cpu.gpr (fieldReg w 15) + Instr.simm11_0 w at hsrc
  rw [hbase, himm] at hsrc
  have htable := idex_table .ld .load 0 hdecode rfl hload rfl
  rcases execLd_run (s := { (fetched s w t).withOperands ops with
    decinfo := { (fetched s w t).decinfo with operand := ops, width := 4 } }) hs.map rfl hsrc
    (hdest.trans hrd) hin with ⟨t', hexec⟩
  rw [hentry]
  exact .of_ok (htable.trans hexec) ⟨rfl, rfl, rfl, rfl, rfl⟩

theorem idex_sw (hs : s.Boundary pmemBase) (rs1 rs2 : Fin 32) (offset : BitVec 12) (t : Trace)
    (hin : InsidePmem pmemBase (s.cpu.gpr rs1 + offset.signExtend 32) 4) :
    let w := (Rv32i.Instr.sw rs1 rs2 offset).encode
    Ensures (idex 2 (opcodeTable (Instr.opcode6_2 w))) (fetched s w t) fun _ s' =>
      Executed s s.cpu.gpr
        (s.storeWord pmemBase (s.cpu.gpr rs1 + offset.signExtend 32) (s.cpu.gpr rs2))
        s.nemuState (s.cpu.pc + 4) s' := by
  intro w
  rcases sw_views rs1 rs2 offset with ⟨-, hop, hfunct, hrs1, hrs2, himm⟩
  have hentry : opcodeTable (Instr.opcode6_2 w) = ⟨some .st, .store, 0⟩ := by
    rw [hop]
    rfl
  have hstore : storeTable (Instr.funct3 w) = ⟨none, .st, 4⟩ := by
    rw [hfunct]
    rfl
  -- the data register is decoded as the destination operand
  have hbase : fieldReg w 15 = rs1 := regWord_inj ((rs1_eq w).symm.trans hrs1)
  have hdata : fieldReg w 20 = rs2 := regWord_inj ((rs2_eq w).symm.trans hrs2)
  rcases decodeSt_run (s := fetched s w t) hs.zero with ⟨ops, hdecode, hsrc, hdest⟩
  change (ops .src).word = s.cpu.gpr (fieldReg w 15) +
    ((Instr.simm11_5 w <<< 5) ||| Instr.imm4_0 w) at hsrc
  change (ops .dest).val = s.cpu.gpr (fieldReg w 20) at hdest
  rw [hbase, himm] at hsrc
  rw [hdata] at hdest
  have htable := idex_table .st .store 0 hdecode rfl hstore rfl
  rcases execSt_run (s := { (fetched s w t).withOperands ops with
    decinfo := { (fetched s w t).decinfo with operand := ops, width := 4 } }) hs.map rfl hsrc hdest
    hin with ⟨t', hexec⟩
  rw [hentry]
  exact .of_ok (htable.trans hexec) ⟨rfl, rfl, rfl, rfl, rfl⟩

theorem idex_nemuTrap {w : Word} (hop : Instr.opcode6_2 w = 26) (t : Trace) :
    Ensures (idex 2 (opcodeTable (Instr.opcode6_2 w))) (fetched s w t) fun _ s' =>
      Executed s s.cpu.gpr s.bus.skipRef ⟨.nemuEnd, s.cpu.pc, s.cpu.gpr rA0⟩ (s.cpu.pc + 4) s' := by
  have hentry : opcodeTable (Instr.opcode6_2 w) = ⟨none, .nemuTrap, 0⟩ := by
    rw [hop]
    rfl
  rcases execNemuTrap_run rA0 (fetched s w t) with ⟨t', hexec⟩
  rw [hentry]
  exact .of_ok ((idex_plain rfl _).trans hexec) ⟨rfl, rfl, rfl, rfl, rfl⟩

/-! ## Invalid words -/

theorem opcodeTable_empty : ∀ op : BitVec 5, op ≠ 0 → op ≠ 8 → op ≠ 13 → op ≠ 26 →
    opcodeTable op = empty := by
  intro op hld hst hlui htrap
  unfold opcodeTable
  split
  case h_1 h => exact absurd (BitVec.eq_of_toNat_eq h) hld
  case h_2 h => exact absurd (BitVec.eq_of_toNat_eq h) hst
  case h_3 h => exact absurd (BitVec.eq_of_toNat_eq h) hlui
  case h_4 h => exact absurd (BitVec.eq_of_toNat_eq h) htrap
  case h_5 => rfl

theorem loadTable_empty {funct3 : BitVec 3} (h : funct3 ≠ 2) : loadTable funct3 = empty := by
  unfold loadTable
  split
  case h_1 htwo => exact absurd (BitVec.eq_of_toNat_eq htwo) h
  case h_2 => rfl

theorem storeTable_empty {funct3 : BitVec 3} (h : funct3 ≠ 2) : storeTable funct3 = empty := by
  unfold storeTable
  split
  case h_1 htwo => exact absurd (BitVec.eq_of_toNat_eq htwo) h
  case h_2 => rfl

/-- The opcode of the trap, which the default image `isa_default_img` ends with. -/
def trapOpcode : BitVec 7 := 0x6b

/-- `exec_inv` does the same, whatever has been decoded before it. -/
theorem idex_execInv (hs : s.Boundary pmemBase) (hin : InsidePmem pmemBase s.cpu.pc 8) {w : Word}
    {t : Trace} {entry : Entry} {ops : OperandId → Operand} {width : Nat}
    (h : idex 2 entry (fetched s w t) = execInv { fetched s w t with
      decinfo := { (fetched s w t).decinfo with operand := ops, width } }) :
    Ensures (idex 2 entry) (fetched s w t) fun _ s' =>
      Executed s s.cpu.gpr s.bus ⟨.nemuAbort, s.cpu.pc, -1⟩ (s.cpu.pc + 8) s' := by
  rcases execInv_run (s := { fetched s w t with
    decinfo := { (fetched s w t).decinfo with operand := ops, width } }) hs.map hin with ⟨t', hexec⟩
  exact .of_ok (h.trans hexec) ⟨rfl, rfl, rfl, rfl, rfl⟩

/-- Every word that is neither an instruction nor the trap is refused, by the first table or by the
second. -/
theorem idex_inv (hs : s.Boundary pmemBase) {w : Word} (hlow : Instr.opcode1_0 w = 3)
    (hinstr : ∀ i : Rv32i.Instr, w ≠ i.encode) (htrap : w.extractLsb' 0 7 ≠ trapOpcode) (t : Trace)
    (hin : InsidePmem pmemBase s.cpu.pc 8) :
    Ensures (idex 2 (opcodeTable (Instr.opcode6_2 w))) (fetched s w t) fun _ s' =>
      Executed s s.cpu.gpr s.bus ⟨.nemuAbort, s.cpu.pc, -1⟩ (s.cpu.pc + 8) s' := by
  -- a load opcode with a width that the second table does not have
  by_cases hld : Instr.opcode6_2 w = 0
  · have hfunct : Instr.funct3 w ≠ 2 := by
      intro hfunct
      rcases lw_of_opcode hlow hld hfunct with ⟨rd, rs1, offset, hw⟩
      exact hinstr _ hw
    have hentry : opcodeTable (Instr.opcode6_2 w) = ⟨some .ld, .load, 0⟩ := by
      rw [hld]
      rfl
    rcases decodeLd_run (s := fetched s w t) hs.zero with ⟨ops, hdecode, -, -⟩
    rw [hentry]
    exact idex_execInv hs hin (idex_table .ld .load 0 hdecode rfl (loadTable_empty hfunct) rfl)
  -- the same for a store
  by_cases hst : Instr.opcode6_2 w = 8
  · have hfunct : Instr.funct3 w ≠ 2 := by
      intro hfunct
      rcases sw_of_opcode hlow hst hfunct with ⟨rs1, rs2, offset, hw⟩
      exact hinstr _ hw
    have hentry : opcodeTable (Instr.opcode6_2 w) = ⟨some .st, .store, 0⟩ := by
      rw [hst]
      rfl
    rcases decodeSt_run (s := fetched s w t) hs.zero with ⟨ops, hdecode, -, -⟩
    rw [hentry]
    exact idex_execInv hs hin (idex_table .st .store 0 hdecode rfl (storeTable_empty hfunct) rfl)
  · -- the first table has no entry
    have hlui : Instr.opcode6_2 w ≠ 13 := by
      intro hlui
      rcases lui_of_opcode hlow hlui with ⟨rd, imm, hw⟩
      exact hinstr _ hw
    have hnottrap : Instr.opcode6_2 w ≠ 26 := by
      intro h
      rw [opcode_split, h, hlow] at htrap
      exact htrap rfl
    rw [opcodeTable_empty _ hld hst hlui hnottrap]
    exact @idex_execInv s hs hin w t empty s.decinfo.operand s.decinfo.width (idex_plain rfl _)

end Dispatch

/-! ## exec_once -/

/-- The hart that the guest program runs on. -/
def hart (s : Machine) : Rv32i.Hart := ⟨s.cpu.gpr, s.cpu.pc, s.bus.guestByte pmemBase⟩

/-- What `exec_once` does in `s`, by the word at `pc`. -/
structure Implements (s : Machine) : Prop where
  instr : ∀ i : Rv32i.Instr, s.wordAt pmemBase s.cpu.pc = i.encode →
    (∀ a, i.address (hart s) = some a → InsidePmem pmemBase a 4) →
    ∃ s', execOnce s = .ok (s.cpu.pc + 4) s' ∧ hart s' = i.exec (hart s) ∧
      s'.bus = { s.bus with pmem := s'.bus.pmem } ∧ s'.nemuState = s.nemuState
  trap : (s.wordAt pmemBase s.cpu.pc).extractLsb' 0 7 = trapOpcode →
    ∃ s', execOnce s = .ok (s.cpu.pc + 4) s' ∧ s'.cpu = { s.cpu with pc := s.cpu.pc + 4 } ∧
      s'.bus = s.bus.skipRef ∧ s'.nemuState = ⟨.nemuEnd, s.cpu.pc, s.cpu.gpr rA0⟩
  other : (∀ i : Rv32i.Instr, s.wordAt pmemBase s.cpu.pc ≠ i.encode) →
    (s.wordAt pmemBase s.cpu.pc).extractLsb' 0 7 ≠ trapOpcode → InsidePmem pmemBase s.cpu.pc 8 →
    ∃ s', execOnce s = .ok (s.cpu.pc + 8) s' ∧ s'.cpu = { s.cpu with pc := s.cpu.pc + 8 } ∧
      s'.bus = s.bus ∧ s'.nemuState = ⟨.nemuAbort, s.cpu.pc, -1⟩

section ExecOnce

variable {s : Machine}

/-- From the dispatch of the first entry to `exec_once`. -/
theorem execOnce_of_idex (hs : s.Boundary pmemBase) (hin : InsidePmem pmemBase s.cpu.pc 4)
    {w : Word} (hw : s.wordAt pmemBase s.cpu.pc = w) (hlow : Instr.opcode1_0 w = 3)
    {gpr : Fin 32 → Word} {bus : Bus} {state : NEMUState} {npc : Word}
    (h : ∀ t, Ensures (idex 2 (opcodeTable (Instr.opcode6_2 w))) (fetched s w t) fun _ s' =>
      Executed s gpr bus state npc s') :
    ∃ s', execOnce s = .ok npc s' ∧ s'.cpu = ⟨gpr, npc⟩ ∧ s'.bus = bus ∧ s'.nemuState = state := by
  rcases isaExec_run hs hin hw hlow with ⟨t, hisa⟩
  refine execOnce_executed hs.isJmp ?_
  rcases h t with ⟨u, s', hrun, hexecuted⟩
  exact ⟨u, s', hisa.trans hrun, hexecuted⟩

/-- A stored word as the guest sees it. -/
theorem guestByte_storeWord {a : Word} (v : Word) (hin : InsidePmem pmemBase a 4) :
    (s.storeWord pmemBase a v).guestByte pmemBase = (hart s).writeWord a v := by
  rw [Machine.storeWord, (validWrite hin).guestByte_after]
  funext b
  change (if decide ((b - a).toNat < 4) = true then byteOf v (b - a).toNat
    else s.bus.guestByte pmemBase b) = _
  simp only [decide_eq_true_eq]
  rfl

theorem execOnce_instr (hs : s.Boundary pmemBase) (hin : InsidePmem pmemBase s.cpu.pc 4)
    (i : Rv32i.Instr) (hw : s.wordAt pmemBase s.cpu.pc = i.encode)
    (haddr : ∀ a, i.address (hart s) = some a → InsidePmem pmemBase a 4) :
    ∃ s', execOnce s = .ok (s.cpu.pc + 4) s' ∧ hart s' = i.exec (hart s) ∧
      s'.bus = { s.bus with pmem := s'.bus.pmem } ∧ s'.nemuState = s.nemuState := by
  cases i with
  | lui rd imm =>
      rcases execOnce_of_idex hs hin hw (lui_views rd imm).1 (idex_lui hs.zero rd imm) with
        ⟨s', hrun, hcpu, hbus, hstate⟩
      refine ⟨s', hrun, ?_, ?_, hstate⟩
      · rw [hart, hcpu, hbus]
        rfl
      · rw [hbus]
  | lw rd rs1 offset =>
      have hdata : InsidePmem pmemBase (s.cpu.gpr rs1 + offset.signExtend 32) 4 := haddr _ rfl
      rcases execOnce_of_idex hs hin hw (lw_views rd rs1 offset).1
        (fun t => idex_lw hs rd rs1 offset t hdata) with ⟨s', hrun, hcpu, hbus, hstate⟩
      refine ⟨s', hrun, ?_, ?_, hstate⟩
      · rw [hart, hcpu, hbus]
        rfl
      · rw [hbus]
  | sw rs1 rs2 offset =>
      have hdata : InsidePmem pmemBase (s.cpu.gpr rs1 + offset.signExtend 32) 4 := haddr _ rfl
      rcases execOnce_of_idex hs hin hw (sw_views rs1 rs2 offset).1
        (fun t => idex_sw hs rs1 rs2 offset t hdata) with ⟨s', hrun, hcpu, hbus, hstate⟩
      refine ⟨s', hrun, ?_, ?_, hstate⟩
      · rw [hart, hcpu, hbus, guestByte_storeWord _ hdata]
        rfl
      · rw [hbus]
        rfl

theorem opcode1_0_of_trap {w : Word} (h : w.extractLsb' 0 7 = trapOpcode) :
    Instr.opcode1_0 w = 3 ∧ Instr.opcode6_2 w = 26 := by
  rw [opcode_split] at h
  have hhigh := congrArg (BitVec.extractLsb' 2 5) h
  have hlow := congrArg (BitVec.extractLsb' 0 2) h
  rw [BitVec.extractLsb'_append_eq_left] at hhigh
  rw [BitVec.extractLsb'_append_eq_right] at hlow
  exact ⟨hlow, hhigh⟩

theorem implements (hs : s.Boundary pmemBase) (hin : InsidePmem pmemBase s.cpu.pc 4)
    (hlow : (s.wordAt pmemBase s.cpu.pc).extractLsb' 0 2 = 3) : Implements s where
  instr := execOnce_instr hs hin
  trap h := execOnce_of_idex hs hin rfl hlow (idex_nemuTrap (opcode1_0_of_trap h).2)
  other hinstr htrap hin8 :=
    execOnce_of_idex hs hin rfl hlow fun t => idex_inv hs hlow hinstr htrap t hin8

end ExecOnce

/-! ## Runs -/

/-- `init_isa` -/
def initIsa (s : Machine) : Machine :=
  { s with
    bus := { s.bus with pmemMap := registerPmem pmemBase }
    cpu := { gpr := fun i => if i.val = 0 then 0 else s.cpu.gpr i, pc := Isa.riscv32.pcStart } }

/-- The states between and behind instructions.  What the monitor and the devices do in between
leaves `cpu` and `decinfo` alone. -/
inductive Reachable : Machine → Prop
  | init {s : Machine} : s.decinfo.isJmp = false → Reachable (initIsa s)
  | exec {s : Machine} : Reachable s → Reachable (final (execOnce s))
  | monitor {s s' : Machine} : Reachable s → s'.cpu = s.cpu → s'.decinfo = s.decinfo →
      s'.bus.pmemMap = s.bus.pmemMap → Reachable s'

theorem runDecode_within (e : Entry) : Within Keeps (runDecode e) := by
  unfold runDecode
  cases e.decode with
  | none => exact Within.pure _
  | some d =>
      cases d with
      | U =>
          refine Within.get.bind fun s => (decodeOpI_within .src _).bind fun _ => ?_
          exact (decodeOpR_within regsl .dest _ false).bind fun _ => printDop_within .src _
      | ld =>
          refine Within.get.bind fun s => (decodeAddr_within regsl _ _).bind fun _ => ?_
          exact decodeOpR_within regsl .dest _ false
      | st =>
          refine Within.get.bind fun s => (decodeAddr_within regsl _ _).bind fun _ => ?_
          exact decodeOpR_within regsl .dest _ true

theorem execLui_within : Within Keeps execLui := by
  refine (getOperand_within .dest).bind fun dest => (getOperand_within .src).bind fun src => ?_
  exact (rtlSr_within dest.word src.val).bind fun _ => printAsmTemplate2_within _

theorem execTable_within {idex : Entry → Exec Unit} (hidex : ∀ e, Within Keeps (idex e))
    (table : BitVec 3 → Entry) : Within Keeps (execTable idex table) :=
  Within.get.bind fun _ => (Within.modify fun _ => ⟨rfl, rfl, rfl⟩).bind fun _ => hidex _

theorem idex_within (fuel : Nat) (e : Entry) : Within Keeps (idex fuel e) := by
  induction fuel generalizing e with
  | zero => exact Within.throw _
  | succ fuel ih =>
      refine (runDecode_within e).bind fun _ => ?_
      cases e.execute with
      | inv => exact execInv_within
      | lui => exact execLui_within
      | load => exact execTable_within ih loadTable
      | store => exact execTable_within ih storeTable
      | ld => exact execLd_within
      | st => exact execSt_within
      | nemuTrap => exact execNemuTrap_within rA0

theorem isaExec_within : Within Keeps isaExec := by
  refine (instrFetch_within 4).bind fun _ => (Within.modify fun _ => ⟨rfl, rfl, rfl⟩).bind fun _ => ?_
  exact (cAssert_within _).bind fun _ => idex_within 2 _

theorem Reachable.boundary {s : Machine} (h : Reachable s) : s.Boundary pmemBase := by
  induction h with
  | init hjmp => exact ⟨rfl, hjmp, rfl⟩
  | exec _ ih => exact ih.execOnce isaExec_within
  | monitor _ hcpu hdecinfo hmap ih =>
      refine ⟨hmap.trans ih.map, ?_, ?_⟩
      · rw [hdecinfo]
        exact ih.isJmp
      · rw [hcpu]
        exact ih.zero

/-- riscv32 on every word, and register 0 in every state. -/
theorem execOnce_rv32i :
    (∀ s : Machine, s.Boundary pmemBase → InsidePmem pmemBase s.cpu.pc 4 →
      (s.wordAt pmemBase s.cpu.pc).extractLsb' 0 2 = 3 → Implements s) ∧
    ∀ s : Machine, Reachable s → s.Boundary pmemBase ∧ s.cpu.gpr 0 = 0 :=
  ⟨fun _ hs hin hlow => implements hs hin hlow, fun _ h => ⟨h.boundary, h.boundary.zero⟩⟩

/-- The first word of `isa_default_img` at the address where it is loaded. -/
def defaultImgMachine : Machine :=
  initIsa
    { cpu := ⟨fun _ => 0, 0⟩
      bus := { Bus.zero with pmem := memcpy (fun _ => 0) 1048576 (bytesOf 0x800002b7 4) }
      s0 := 0
      ir := 0
      decinfo := ⟨0, 0, false, DecodeInfo.zero.operand, 0⟩
      nemuState := ⟨.nemuStop, 0, 0⟩
      trace := .zero }

/-- `lui t0, 0x80000` -/
theorem execOnce_rv32i_lui :
    ∃ s', execOnce defaultImgMachine = .ok 0x80100004 s' ∧ s'.cpu.gpr 5 = 0x80000000 ∧
      s'.nemuState = ⟨.nemuStop, 0, 0⟩ := by
  have hs : defaultImgMachine.Boundary pmemBase := ⟨rfl, rfl, rfl⟩
  have hin : InsidePmem pmemBase defaultImgMachine.cpu.pc 4 := by decide
  have hword : defaultImgMachine.wordAt pmemBase defaultImgMachine.cpu.pc = 0x800002b7 := by decide
  have hcode : (0x800002b7 : Word) = (Rv32i.Instr.lui 5 0x80000).encode := by decide
  have hlow : (defaultImgMachine.wordAt pmemBase defaultImgMachine.cpu.pc).extractLsb' 0 2 = 3 := by
    rw [hword]
    decide
  rcases (execOnce_rv32i.1 _ hs hin hlow).instr (.lui 5 0x80000) (hword.trans hcode)
    (fun _ h => by cases h) with ⟨s', hrun, hhart, -, hstate⟩
  exact ⟨s', hrun, congrArg (fun h => h.x 5) hhart, hstate⟩

end Riscv32
end Risc
end Nemu
