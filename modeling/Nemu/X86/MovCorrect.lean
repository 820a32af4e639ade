import Nemu.X86.Addressing
import Nemu.X86.Boundary

/-!
# The mov instructions end to end

One `isa_exec` on an encoded `mov` carries out what the manual says.  The decode helper of each
form fills in the two operands, `exec_mov` writes one of them, and prefixes only change the width.
-/

namespace Nemu

open LittleEndian StateRules

/-! ## Writing -/

/-- `s'` is `s` with the low `w` bytes of `v` written to the place `p`. -/
structure Wrote (s : Machine) (p : Place) (w : Nat) (v : Word) (s' : Machine) : Prop where
  written : ∀ j < w, s'.byteAt (p.byteLoc w j) = byteOf v j
  others : ∀ b, (∀ j < w, b ≠ p.byteLoc w j) → s'.byteAt b = s.byteAt b
  bus : s'.bus = { s.bus with pmem := s'.bus.pmem }
  pc : s'.cpu.pc = s.cpu.pc
  nemuState : s'.nemuState = s.nemuState
  decinfo : s'.decinfo = s.decinfo
  fetched : s'.trace.fetched = s.trace.fetched

/-- Bytes `k` .. `k + n - 1` of register `r` replaced. -/
def CPUState.insertAt (cpu : CPUState) (r : Fin 8) (k n : Nat) (v : Word) : CPUState :=
  { cpu with gpr := Function.update cpu.gpr r (insert (cpu.gpr r) k n v) }

theorem byteAt_insertAt (s : Machine) (r i : Fin 8) (k n : Nat) (v : Word) (j : Fin 4) :
    Machine.byteAt { s with cpu := s.cpu.insertAt r k n v } (.reg i j) =
      if i = r ∧ k ≤ j.val ∧ j.val < k + n then byteOf v (j.val - k)
      else s.byteAt (.reg i j) := by
  simp only [Machine.byteAt, CPUState.insertAt]
  by_cases hi : i = r
  · rw [hi, Function.update_self, byteOf_insert _ _ _ _ j.isLt]
    simp only [true_and]
  · rw [Function.update_of_ne hi, if_neg (fun h => hi h.1)]

theorem setGpr32_eq (cpu : CPUState) (r : Fin 8) (v : Word) :
    cpu.setGpr32 r v = cpu.insertAt r 0 4 v := by
  have hword : insert (cpu.gpr r) 0 4 v = v := by
    apply eq_of_byteOf
    intro k hk
    rw [byteOf_insert _ _ _ _ hk, if_pos (by omega), Nat.sub_zero]
  rw [CPUState.setGpr32, CPUState.insertAt, hword]

/-- A register that is written at the bytes its place has. -/
theorem wrote_insertAt {s : Machine} {r i : Fin 8} {k n : Nat} (v : Word)
    (hloc : ∀ j < n, ∃ h, (Place.reg r).byteLoc n j = .reg i ⟨k + j, h⟩) :
    Wrote s (.reg r) n v { s with cpu := s.cpu.insertAt i k n v } where
  written j hj := by
    rcases hloc j hj with ⟨h, heq⟩
    have hsub : k + j - k = j := by omega
    rw [heq, byteAt_insertAt, if_pos ⟨rfl, by dsimp only; omega, by dsimp only; omega⟩, hsub]
  others b hb := by
    cases b with
    | mem a => rfl
    | reg i' j =>
        rw [byteAt_insertAt]
        split
        case isTrue h =>
          -- such a byte is one of the place
          have hj : j.val - k < n := by omega
          rcases hloc (j.val - k) hj with ⟨h', heq⟩
          have hidx : (⟨k + (j.val - k), h'⟩ : Fin 4) = j := by
            apply Fin.ext
            dsimp only
            omega
          rw [hidx, ← h.1] at heq
          exact absurd heq.symm (hb _ hj)
        case isFalse => rfl
  bus := rfl
  pc := rfl
  nemuState := rfl
  decinfo := rfl
  fetched := rfl

theorem rtlSr_spec (s : Machine) (r : Fin 8) {w : Nat} (hw : ValidWidth w) (v : Word) :
    Ensures (rtlSr (BitVec.ofNat 32 r.val) v w) s fun _ s' => Wrote s (.reg r) w v s' := by
  have hr := r.isLt
  rcases hw with rfl | rfl | rfl
  · refine Ensures.step (checkRegIndex_run r s) (Ensures.of_ok (modify_run _ s) ?_)
    refine wrote_insertAt v fun j hj => ⟨by omega, ?_⟩
    have hzero : j = 0 := by omega
    subst hzero
    rfl
  · refine Ensures.step (checkRegIndex_run r s) (Ensures.of_ok (modify_run _ s) ?_)
    refine wrote_insertAt v fun j hj => ⟨by omega, ?_⟩
    have hmod : j % 4 = 0 + j := by omega
    simp only [Place.byteLoc, hmod]
    rfl
  · refine Ensures.step (checkRegIndex_run r s) (Ensures.of_ok (modify_run _ s) ?_)
    change Wrote s _ _ _ { s with cpu := s.cpu.setGpr32 r v }
    rw [setGpr32_eq]
    refine wrote_insertAt v fun j hj => ⟨by omega, ?_⟩
    have hmod : j % 4 = 0 + j := by omega
    simp only [Place.byteLoc, hmod]
    rfl

theorem rtlSm_spec {s : Machine} {addr : Word} {w : Nat} (hmap : s.bus.pmemMap = registerPmem 0)
    (hw : ValidWidth w) (hin : (Place.mem addr).InPmem w) (v : Word) :
    Ensures (rtlSm addr v w) s fun _ s' => Wrote s (.mem addr) w v s' := by
  have hbound : addr.toNat + w ≤ pmemSize := hin
  have hpos := hw.bounds.1
  refine Ensures.of_ok (onBus_ok (vaddrWrite_inPmem hmap (by omega))) ?_
  refine ⟨fun j hj => ?_, fun b hb => ?_, rfl, rfl, rfl, rfl, rfl⟩
  · change store _ _ _ _ (addr.toNat + j) = _
    rw [store_apply, if_pos (by omega), Nat.add_sub_cancel_left]
  · cases b with
    | reg i k => rfl
    | mem a =>
        change store _ _ _ _ a = _
        rw [store_apply, if_neg]
        · rfl
        · intro h
          refine hb (a - addr.toNat) (by omega) ?_
          have hidx : addr.toNat + (a - addr.toNat) = a := by omega
          simp only [Place.byteLoc, hidx]

theorem operandWrite_spec {s : Machine} {op : OperandId} {p : Place} {w : Nat}
    (hmap : s.bus.pmemMap = registerPmem 0) (hw : ValidWidth w)
    (ho : (s.decinfo.operand op).Shows s p w false) (hin : p.InPmem w) (v : Word) :
    Ensures (operandWrite op v) s fun _ s' => Wrote s p w v s' := by
  refine Ensures.step (getOperand_run s op) ?_
  rw [ho.type, ho.word, ho.width]
  cases p with
  | reg r => exact rtlSr_spec s r hw v
  | mem addr => exact rtlSm_spec hmap hw hin v

/-- `exec_mov` writes the value of the source operand. -/
theorem execMov_spec {s : Machine} {p : Place} {w : Nat}
    (hmap : s.bus.pmemMap = registerPmem 0) (hw : ValidWidth w)
    (ho : (s.decinfo.operand .dest).Shows s p w false) (hin : p.InPmem w) :
    Ensures execMov s fun _ s' => Wrote s p w (s.decinfo.operand .src).val s' := by
  refine Ensures.step (getOperand_run s .src) ?_
  refine (operandWrite_spec hmap hw ho hin _).bind fun _ s₁ h₁ => ?_
  refine Ensures.step (getOperand_run s₁ .src) (Ensures.step (getOperand_run s₁ .dest) ?_)
  -- printing changes the trace only
  exact Ensures.of_ok (modify_run _ s₁) { h₁ with }

/-! ## Decoding -/

/-- The decode helper of a form. -/
def Mov.helper : Mov → DHelper
  | regToRm _ _ => .movG2E
  | rmToReg _ _ => .movE2G
  | moffsToAcc _ _ => .O2a
  | accToMoffs _ _ => .a2O
  | immToReg _ _ _ => .movI2r
  | immToRm _ _ _ => .movI2E

theorem opcodeTable_mov (i : Mov) :
    opcodeTable i.opcode.toNat = ⟨some i.helper, .mov, if i.isByte then 1 else 0⟩ := by
  have himm : ∀ (b : Bool) (r : Fin 8),
      opcodeTable ((if b then 0xb0#8 else 0xb8#8) + BitVec.ofNat 8 r.val).toNat =
        ⟨some .movI2r, .mov, if b then 1 else 0⟩ := by decide
  cases i with
  | regToRm b m => cases b <;> rfl
  | rmToReg b m => cases b <;> rfl
  | moffsToAcc b addr => cases b <;> rfl
  | accToMoffs b addr => cases b <;> rfl
  | immToReg b r imm => exact himm b r
  | immToRm b m imm => cases b <;> rfl

/-- The last three bits of the opcodes `b0` .. `bf` name the register. -/
theorem immToReg_opcode (b : Bool) (r : Fin 8) (imm : Word) :
    (Mov.immToReg b r imm).opcode.toNat % 8 = r.val := by
  have hall : ∀ (b : Bool) (r : Fin 8),
      ((if b then 0xb0#8 else 0xb8#8) + BitVec.ofNat 8 r.val).toNat % 8 = r.val := by decide
  exact hall b r

/-- What decoding the operands of `i` establishes. -/
structure Mov.Decodes (i : Mov) (s : Machine) (w : Nat) (s' : Machine) : Prop where
  decoded : Decoded s (i.operands w).length s'
  dest : (s'.decinfo.operand .dest).Shows s (i.dest s.cpu) w false
  src : ∀ j < w, byteOf (s'.decinfo.operand .src).val j = (i.source s.cpu).byte s w j

/-- Two operands filled in one after the other. -/
theorem Fills.both {s s₁ s₂ : Machine} {m n : Nat} {op op' : OperandId} {o o' : Operand}
    (hne : op ≠ op') (h : Fills s m op o s₁) (h' : Fills s₁ n op' o' s₂) :
    Decoded s (m + n) s₂ ∧ s₂.decinfo.operand op = o ∧ s₂.decinfo.operand op' = o' := by
  refine ⟨h.decoded.trans h'.decoded, ?_, ?_⟩
  · rw [h'.operand, Function.update_of_ne hne, h.operand, Function.update_self]
  · rw [h'.operand, Function.update_self]

theorem Fills.width_of_ne {s s' : Machine} {n : Nat} {op op' : OperandId} {o : Operand}
    (hne : op' ≠ op) (h : Fills s n op o s') :
    s'.decinfo.operand op' = s.decinfo.operand op' := by
  rw [h.operand, Function.update_of_ne hne]

/-- What the decode helper of `i` finds: the opcode and the width are set, the operand bytes come
next, and the source can be read. -/
structure Mov.Ready (i : Mov) (s : Machine) (w : Nat) : Prop where
  opcode : s.decinfo.opcode = i.opcode.toNat
  width : ∀ op, (s.decinfo.operand op).width = w
  valid : ValidWidth w
  fetches : s.Fetches (i.operands w)
  source : (i.source s.cpu).InPmem w

theorem Mov.Ready.validWidth {i : Mov} {s : Machine} {w : Nat} (h : i.Ready s w)
    (op : OperandId) : ValidWidth (s.decinfo.operand op).width := by
  rw [h.width op]
  exact h.valid

theorem regToRm_decodes {b : Bool} {m : RM} {s : Machine} {w : Nat}
    (h : (Mov.regToRm b m).Ready s w) :
    Ensures DHelper.movG2E.run s fun _ s' => (Mov.regToRm b m).Decodes s w s' := by
  refine (readModRM_spec (by decide) (h.validWidth _) (h.validWidth _) h.fetches
    (fun hl => by cases hl)).mono fun _ s' h' => ?_
  rcases h' with ⟨o, o', hdec, ho, ho', hshows, hshows'⟩
  rw [h.width] at hshows hshows'
  refine ⟨hdec, ho ▸ hshows, fun j hj => ?_⟩
  rw [ho']
  exact hshows'.val rfl j hj

theorem rmToReg_decodes {b : Bool} {m : RM} {s : Machine} {w : Nat}
    (h : (Mov.rmToReg b m).Ready s w) :
    Ensures DHelper.movE2G.run s fun _ s' => (Mov.rmToReg b m).Decodes s w s' := by
  have hin : (m.place s.cpu).InPmem (s.decinfo.operand .src).width := by
    rw [h.width]
    exact h.source
  refine (readModRM_spec (by decide) (h.validWidth _) (h.validWidth _) h.fetches
    (fun _ => hin)).mono fun _ s' h' => ?_
  rcases h' with ⟨o, o', hdec, ho, ho', hshows, hshows'⟩
  rw [h.width] at hshows hshows'
  refine ⟨hdec, ho' ▸ hshows', fun j hj => ?_⟩
  rw [ho]
  exact hshows.val rfl j hj

theorem immToRm_decodes {b : Bool} {m : RM} {imm : Word} {s : Machine} {w : Nat}
    (h : (Mov.immToRm b m imm).Ready s w) :
    Ensures DHelper.movI2E.run s fun _ s' => (Mov.immToRm b m imm).Decodes s w s' := by
  have hfetch : s.Fetches (m.bytes ++ bytesOf imm w) := h.fetches
  refine (readModRM_none_spec (h.validWidth _) hfetch.take (fun hl => by cases hl)).bind
    fun _ s₁ h₁ => ?_
  rcases h₁ with ⟨o, hfills, hshows⟩
  have hsrc : (s₁.decinfo.operand .src).width = w := by
    rw [hfills.width_of_ne (by decide), h.width]
  refine (decodeOpI_spec (v := imm) (hsrc.symm ▸ h.valid)
    (hsrc.symm ▸ hfetch.rest hfills.decoded)).mono fun _ s' h' => ?_
  rcases h' with ⟨o', hfills', hval⟩
  rw [hsrc] at hfills' hval
  rcases hfills.both (by decide) hfills' with ⟨hdec, ho, ho'⟩
  rw [h.width] at hshows
  refine ⟨?_, ho ▸ hshows, fun j hj => ?_⟩
  · rw [Mov.operands, List.length_append, length_bytesOf]
    exact hdec
  · rw [ho']
    exact hval j hj

theorem immToReg_decodes {b : Bool} {r : Fin 8} {imm : Word} {s : Machine} {w : Nat}
    (h : (Mov.immToReg b r imm).Ready s w) :
    Ensures DHelper.movI2r.run s fun _ s' => (Mov.immToReg b r imm).Decodes s w s' := by
  have hreg : s.decinfo.opcode % 8 = r.val := by
    rw [h.opcode]
    exact immToReg_opcode b r imm
  -- the register number is in the opcode
  have hdest : Ensures (decodeOpR .dest false) s fun _ s' => ∃ o, Fills s 0 .dest o s' ∧
      o.Shows s (.reg r) (s.decinfo.operand .dest).width false := by
    refine Ensures.step (get_run s) ?_
    rw [hreg]
    exact decodeReg_spec r false (h.validWidth _)
  refine hdest.bind fun _ s₁ h₁ => ?_
  rcases h₁ with ⟨o, hfills, hshows⟩
  have hsrc : (s₁.decinfo.operand .src).width = w := by
    rw [hfills.width_of_ne (by decide), h.width]
  have hfetch : s₁.Fetches (bytesOf imm w) := Machine.Fetches.rest (l := []) h.fetches hfills.decoded
  refine (decodeOpI_spec (v := imm) (hsrc.symm ▸ h.valid) (hsrc.symm ▸ hfetch)).mono
    fun _ s' h' => ?_
  rcases h' with ⟨o', hfills', hval⟩
  rw [hsrc] at hfills' hval
  rcases hfills.both (by decide) hfills' with ⟨hdec, ho, ho'⟩
  rw [h.width] at hshows
  refine ⟨?_, ho ▸ hshows, fun j hj => ?_⟩
  · rw [Mov.operands, length_bytesOf]
    exact Nat.zero_add w ▸ hdec
  · rw [ho']
    exact hval j hj

theorem moffsToAcc_decodes {b : Bool} {addr : Word} {s : Machine} {w : Nat}
    (h : (Mov.moffsToAcc b addr).Ready s w) :
    Ensures DHelper.O2a.run s fun _ s' => (Mov.moffsToAcc b addr).Decodes s w s' := by
  have hin : (Place.mem addr).InPmem (s.decinfo.operand .src).width := by
    rw [h.width]
    exact h.source
  refine (decodeOpO_spec (h.validWidth _) h.fetches (fun _ => hin)).bind fun _ s₁ h₁ => ?_
  rcases h₁ with ⟨o, hfills, hshows⟩
  have hdest : (s₁.decinfo.operand .dest).width = w := by
    rw [hfills.width_of_ne (by decide), h.width]
  refine (decodeReg_spec rEax false (hdest.symm ▸ h.valid)).mono fun _ s' h' => ?_
  rcases h' with ⟨o', hfills', hshows'⟩
  rcases hfills.both (by decide) hfills' with ⟨hdec, ho, ho'⟩
  rw [h.width] at hshows
  rw [hdest] at hshows'
  refine ⟨?_, ho' ▸ hshows'.of_decoded hfills.decoded, fun j hj => ?_⟩
  · rw [Mov.operands, length_bytesOf]
    exact hdec
  · rw [ho]
    exact hshows.val rfl j hj

theorem accToMoffs_decodes {b : Bool} {addr : Word} {s : Machine} {w : Nat}
    (h : (Mov.accToMoffs b addr).Ready s w) :
    Ensures DHelper.a2O.run s fun _ s' => (Mov.accToMoffs b addr).Decodes s w s' := by
  refine (decodeReg_spec rEax true (h.validWidth _)).bind fun _ s₁ h₁ => ?_
  rcases h₁ with ⟨o, hfills, hshows⟩
  have hdest : (s₁.decinfo.operand .dest).width = w := by
    rw [hfills.width_of_ne (by decide), h.width]
  have hfetch : s₁.Fetches (bytesOf addr 4) := Machine.Fetches.rest (l := []) h.fetches hfills.decoded
  refine (decodeOpO_spec (hdest.symm ▸ h.valid) hfetch (fun hl => by cases hl)).mono
    fun _ s' h' => ?_
  rcases h' with ⟨o', hfills', hshows'⟩
  rcases hfills.both (by decide) hfills' with ⟨hdec, ho, ho'⟩
  rw [h.width] at hshows
  rw [hdest] at hshows'
  refine ⟨?_, ho' ▸ hshows'.of_decoded hfills.decoded, fun j hj => ?_⟩
  · rw [Mov.operands, length_bytesOf]
    exact hdec
  · rw [ho]
    exact hshows.val rfl j hj

theorem Mov.decodes {i : Mov} {s : Machine} {w : Nat} (h : i.Ready s w) :
    Ensures i.helper.run s fun _ s' => i.Decodes s w s' := by
  cases i with
  | regToRm b m => exact regToRm_decodes h
  | rmToReg b m => exact rmToReg_decodes h
  | moffsToAcc b addr => exact moffsToAcc_decodes h
  | accToMoffs b addr => exact accToMoffs_decodes h
  | immToReg b r imm => exact immToReg_decodes h
  | immToRm b m imm => exact immToRm_decodes h

/-! ## Fetching an entry -/

/-- The width that `set_width` gives the operands. -/
def operandWidth (width : Nat) (isOperandSize16 : Bool) : Nat :=
  if width = 0 then if isOperandSize16 then 2 else 4 else width

/-- An entry of either half of the table. -/
theorem fetchEntry_escape_spec {s : Machine} {b : Byte} (escape : Nat) (h : s.Fetches [b]) :
    Ensures (fetchEntry escape) s fun e s' =>
      e = opcodeTable (b.toNat ||| escape) ∧ Decoded s 1 s' ∧
        s'.decinfo.opcode = b.toNat ||| escape ∧
        ∀ op, (s'.decinfo.operand op).width =
          operandWidth (opcodeTable (b.toNat ||| escape)).width s.decinfo.isOperandSize16 := by
  refine (instrFetch_byte h).bind fun w s₁ h₁ => ?_
  rcases h₁ with ⟨rfl, hdec, -, -⟩
  have hbyte : (b.setWidth 32).toNat = b.toNat := by
    have hlt := b.isLt
    rw [BitVec.toNat_setWidth]
    omega
  rw [hbyte]
  refine Ensures.step (modify_run _ s₁) (Ensures.step (modify_run _ _) ?_)
  refine Ensures.of_ok (pure_run _ _) ⟨rfl, ?_, rfl, fun op => ?_⟩
  · exact { hdec with }
  · rw [← hdec.isOperandSize16]
    rfl

theorem fetchEntry_spec {s : Machine} {b : Byte} (h : s.Fetches [b]) :
    Ensures (fetchEntry 0) s fun e s' =>
      e = opcodeTable b.toNat ∧ Decoded s 1 s' ∧ s'.decinfo.opcode = b.toNat ∧
        ∀ op, (s'.decinfo.operand op).width =
          operandWidth (opcodeTable b.toNat).width s.decinfo.isOperandSize16 := by
  have hspec := fetchEntry_escape_spec 0 h
  rwa [Nat.or_zero] at hspec

/-! ## Prefixes -/

/-- What executing `i` with `k` prefixes does, before `pc` is moved. -/
structure Mov.Executes (i : Mov) (s : Machine) (k w : Nat) (s' : Machine) : Prop where
  written : ∀ j < w, s'.byteAt ((i.dest s.cpu).byteLoc w j) = (i.source s.cpu).byte s w j
  others : ∀ b, (∀ j < w, b ≠ (i.dest s.cpu).byteLoc w j) → s'.byteAt b = s.byteAt b
  bus : s'.bus = { s.bus with pmem := s'.bus.pmem }
  pc : s'.cpu.pc = s.cpu.pc
  nemuState : s'.nemuState = s.nemuState
  isJmp : s'.decinfo.isJmp = s.decinfo.isJmp
  seqPc : s'.decinfo.seqPc =
    s.decinfo.seqPc + BitVec.ofNat 32 (k + 1 + (i.operands w).length)
  fetched : s'.trace.fetched = s.trace.fetched + (k + 1 + (i.operands w).length)

/-- The width of `i` under `k` prefixes, when the flag may be set already. -/
def Mov.widthUnder (i : Mov) (k : Nat) (isOperandSize16 : Bool) : Nat :=
  if i.isByte then 1 else if k = 0 ∧ isOperandSize16 = false then 4 else 2

theorem Source.byte_congr {s s' : Machine} (hgpr : s'.cpu.gpr = s.cpu.gpr)
    (hbus : s'.bus = s.bus) (src : Source) (w j : Nat) : src.byte s' w j = src.byte s w j := by
  cases src with
  | place p => exact byteAt_congr hgpr hbus _
  | const v => rfl

theorem Source.byte_decoded {s s' : Machine} {n : Nat} (h : Decoded s n s') (src : Source)
    (w j : Nat) : src.byte s' w j = src.byte s w j :=
  src.byte_congr (congrArg CPUState.gpr h.cpu) h.bus w j

/-- What is executed behind a part that only decodes. -/
theorem Mov.Executes.of_decoded {i : Mov} {s s₁ s' : Machine} {n m k w : Nat}
    (hdec : Decoded s n s₁) (h : i.Executes s₁ m w s') (hk : n + m = k) :
    i.Executes s k w s' where
  written j hj := by
    have hbyte := h.written j hj
    rwa [hdec.cpu, Source.byte_decoded hdec] at hbyte
  others b hb := by
    rw [← hdec.cpu] at hb
    exact (h.others b hb).trans (byteAt_decoded hdec b)
  bus := hdec.bus ▸ h.bus
  pc := h.pc.trans (congrArg CPUState.pc hdec.cpu)
  nemuState := h.nemuState.trans hdec.nemuState
  isJmp := h.isJmp.trans hdec.isJmp
  seqPc := by
    have hlen : n + (m + 1 + (i.operands w).length) = k + 1 + (i.operands w).length := by omega
    rw [h.seqPc, hdec.seqPc, BitVec.add_assoc, ← BitVec.ofNat_add, hlen]
  fetched := by
    rw [h.fetched, hdec.fetched]
    omega

theorem Mov.validWidthUnder (i : Mov) (k : Nat) (b : Bool) : ValidWidth (i.widthUnder k b) := by
  unfold Mov.widthUnder ValidWidth
  split
  · exact .inl rfl
  · split
    · exact .inr (.inr rfl)
    · exact .inr (.inl rfl)

/-- The opcode and the operands. -/
theorem noPrefix_spec {i : Mov} {s : Machine} {w fuel : Nat}
    (hw : w = i.widthUnder 0 s.decinfo.isOperandSize16)
    (h : s.Fetches (i.opcode :: i.operands w)) (hsrc : (i.source s.cpu).InPmem w)
    (hdest : (i.dest s.cpu).InPmem w) :
    Ensures (fetchEntry 0 >>= idex (fuel + 1)) s fun _ s' => i.Executes s 0 w s' := by
  refine (fetchEntry_spec (Machine.Fetches.take (l := [i.opcode]) h)).bind fun e s₁ h₁ => ?_
  rcases h₁ with ⟨rfl, hdec₁, hopcode, hwidth⟩
  rw [opcodeTable_mov] at hwidth ⊢
  -- the width of the entry is the width of the instruction
  have hsame : operandWidth (if i.isByte then 1 else 0) s.decinfo.isOperandSize16 = w := by
    rw [hw, operandWidth, Mov.widthUnder]
    cases i.isByte with
    | false => cases s.decinfo.isOperandSize16 <;> rfl
    | true => rfl
  have hready : i.Ready s₁ w := by
    refine ⟨hopcode, fun op => (hwidth op).trans hsame, hw ▸ i.validWidthUnder 0 _, ?_, ?_⟩
    · exact Machine.Fetches.rest (l := [i.opcode]) h hdec₁
    · rw [hdec₁.cpu]
      exact hsrc
  refine (Mov.decodes hready).bind fun _ s₂ h₂ => ?_
  have hdec := hdec₁.trans h₂.decoded
  have hmap : s₂.bus.pmemMap = registerPmem 0 := by
    rw [hdec.bus]
    exact h.map
  have hshows := h₂.dest
  rw [hdec₁.cpu] at hshows
  -- decoding has not moved the destination
  have hshows₂ : (s₂.decinfo.operand .dest).Shows s₂ (i.dest s.cpu) w false :=
    ⟨hshows.type, hshows.word, hshows.width, fun hl => by cases hl⟩
  refine (execMov_spec hmap hready.valid hshows₂ hdest).mono fun _ s' h' => ?_
  exact {
    written := fun j hj => by
      rw [h'.written j hj, h₂.src j hj, hdec₁.cpu, Source.byte_decoded hdec₁]
    others := fun b hb => (h'.others b hb).trans (byteAt_decoded hdec b)
    bus := hdec.bus ▸ h'.bus
    pc := h'.pc.trans (congrArg CPUState.pc hdec.cpu)
    nemuState := h'.nemuState.trans hdec.nemuState
    isJmp := by rw [h'.decinfo, hdec.isJmp]
    seqPc := by rw [h'.decinfo, hdec.seqPc, Nat.zero_add]
    fetched := by rw [h'.fetched, hdec.fetched, Nat.zero_add] }

/-- By induction on the number of prefixes. -/
theorem prefixes_spec {i : Mov} {k : Nat} {s : Machine} {w fuel : Nat} (hk : k < fuel)
    (hw : w = i.widthUnder k s.decinfo.isOperandSize16)
    (h : s.Fetches (List.replicate k 0x66 ++ i.opcode :: i.operands w))
    (hsrc : (i.source s.cpu).InPmem w) (hdest : (i.dest s.cpu).InPmem w) :
    Ensures (fetchEntry 0 >>= idex fuel) s fun _ s' => i.Executes s k w s' := by
  induction k generalizing s fuel with
  | zero =>
      obtain ⟨fuel, rfl⟩ : ∃ n, fuel = n + 1 := ⟨fuel - 1, by omega⟩
      exact noPrefix_spec hw h hsrc hdest
  | succ k ih =>
      obtain ⟨fuel, rfl⟩ : ∃ n, fuel = n + 1 := ⟨fuel - 1, by omega⟩
      have hcons : s.Fetches ([0x66#8] ++ (List.replicate k 0x66 ++ i.opcode :: i.operands w)) := h
      refine (fetchEntry_spec hcons.take).bind fun e s₁ h₁ => ?_
      rcases h₁ with ⟨rfl, hdec₁, -, -⟩
      -- the prefix sets the flag, executes the rest, and clears the flag
      refine Ensures.step (pure_run _ s₁) (Ensures.step (modify_run _ s₁) ?_)
      have hw' : w = i.widthUnder k true := by
        rw [hw, Mov.widthUnder, Mov.widthUnder]
        simp
      have hrest := hcons.rest hdec₁
      rw [← hdec₁.cpu] at hsrc hdest
      have hinner : fuel > k := by omega
      rcases ih (s := { s₁ with
          decinfo := { s₁.decinfo with isOperandSize16 := true } }) hinner hw'
        ⟨hrest.map, hrest.bytes, hrest.inside⟩ hsrc hdest with ⟨u, s₂, hrun, h₂⟩
      rcases bind_eq_ok.1 hrun with ⟨e, s₃, hfetch, hidex⟩
      refine Ensures.step hfetch (Ensures.step hidex (Ensures.of_ok (modify_run _ s₂) ?_))
      have hexec : i.Executes s₁ k w
          { s₂ with decinfo := { s₂.decinfo with isOperandSize16 := false } } :=
        { h₂ with }
      exact hexec.of_decoded hdec₁ (Nat.add_comm 1 k)

/-! ## isa_exec -/

theorem Mov.widthUnder_false (i : Mov) (k : Nat) : i.widthUnder k false = i.width k := by
  simp [Mov.widthUnder, Mov.width]

theorem Mov.length_encode (i : Mov) (k : Nat) :
    (i.encode k).length = k + 1 + (i.operands (i.width k)).length := by
  simp only [Mov.encode, List.length_append, List.length_replicate, List.length_cons]
  omega

/-- `isa_exec` on a `mov` that lies in `pmem` with its operands. -/
theorem isaExec_executes {s : Machine} {i : Mov} {k : Nat} (hs : s.Boundary)
    (hcode : Holds s.bus.pmem s.cpu.pc.toNat (i.encode k))
    (hin : s.cpu.pc.toNat + (i.encode k).length ≤ pmemSize)
    (hsrc : (i.source s.cpu).InPmem (i.width k)) (hdest : (i.dest s.cpu).InPmem (i.width k)) :
    Ensures isaExec { s with decinfo := { s.decinfo with seqPc := s.cpu.pc } } fun _ s₁ =>
      i.Executes { s with decinfo := { s.decinfo with seqPc := s.cpu.pc } } k (i.width k) s₁ := by
  have hfetch : Machine.Fetches { s with decinfo := { s.decinfo with seqPc := s.cpu.pc } }
      (i.encode k) := ⟨hs.map, hcode, hin⟩
  have hwidth : i.width k = i.widthUnder k s.decinfo.isOperandSize16 := by
    rw [hs.isOperandSize16, i.widthUnder_false]
  have hfuel : k < idexFuel := by
    have hlen := i.length_encode k
    have hsize : pmemSize = 134217728 := rfl
    unfold idexFuel
    omega
  exact prefixes_spec hfuel hwidth hfetch hsrc hdest

/-- A machine with the encoded instruction at address 0. -/
def Mov.loaded (i : Mov) (k : Nat) : Machine :=
  { Machine.zero with bus := { Bus.zero with pmem := fun a => (i.encode k).getD a 0 } }

theorem Mov.loaded_holds (i : Mov) (k : Nat) : Holds (i.loaded k).bus.pmem 0 (i.encode k) := by
  intro j hj
  change (i.encode k).getD (0 + j) 0 = _
  rw [Nat.zero_add, List.getD_eq_getElem?_getD, List.getElem?_eq_getElem hj]
  rfl

end Nemu
