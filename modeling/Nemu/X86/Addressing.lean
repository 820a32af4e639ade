import Nemu.X86.Decoding

/-!
# What read_ModR_M computes

`load_addr` computes the effective address that the manual gives for the ModR/M and SIB bytes, and
`read_ModR_M` fills in the operands that they name.
-/

namespace Nemu

open LittleEndian StateRules

/-! ## The fields of the encoding bytes -/

theorem toNat_extract_low (b : Byte) : (b.extractLsb' 0 3).toNat = b.toNat % 8 := by
  rw [BitVec.extractLsb'_toNat, Nat.shiftRight_zero]

theorem toNat_extract_middle (b : Byte) : (b.extractLsb' 3 3).toNat = b.toNat / 8 % 8 := by
  rw [BitVec.extractLsb'_toNat, Nat.shiftRight_eq_div_pow]

theorem toNat_extract_high (b : Byte) : (b.extractLsb' 6 2).toNat = b.toNat / 64 := by
  have hlt := b.isLt
  rw [BitVec.extractLsb'_toNat, Nat.shiftRight_eq_div_pow]
  omega

section Fields

variable (m : RM)

theorem regOf_regM : regOf (ModRM.regM m.modrm) = m.rm :=
  Fin.ext (toNat_extract_low m.modrm)

theorem regOf_reg : regOf (ModRM.reg m.modrm) = m.reg :=
  Fin.ext (toNat_extract_middle m.modrm)

theorem regOf_base : regOf (SIB.base m.sib) = m.base :=
  Fin.ext (toNat_extract_low m.sib)

theorem regOf_index : regOf (SIB.index m.sib) = m.index :=
  Fin.ext (toNat_extract_middle m.sib)

theorem toNat_ss : (SIB.ss m.sib).toNat = m.scale := toNat_extract_high m.sib

theorem toNat_mod : (ModRM.mod m.modrm).toNat = m.mod := toNat_extract_high m.modrm

theorem mod_eq_iff (k : BitVec 2) : ModRM.mod m.modrm = k ↔ m.mod = k.toNat := by
  rw [← toNat_mod, BitVec.toNat_inj]

theorem mod_le : m.mod ≤ 3 := by
  rw [← toNat_mod]
  omega

theorem setWidth_regOf (r : BitVec 3) : r.setWidth 32 = BitVec.ofNat 32 (regOf r).val := by
  apply BitVec.eq_of_toNat_eq
  have hlt := r.isLt
  rw [BitVec.toNat_setWidth, BitVec.toNat_ofNat]
  rfl

end Fields

/-! ## load_addr -/

/-- `base_reg`, before the tests of `mod`, and `index_reg` with its scale. -/
theorem fetchForm_spec {s : Machine} {m : RM} {l : List Byte} (hmod : m.mod ≠ 3)
    (h : s.Fetches ((if m.hasSib then [m.sib] else []) ++ l)) :
    Ensures (fetchForm m.modrm) s fun form s' =>
      form.baseReg = some m.baseField ∧
        form.indexReg = (if m.hasSib ∧ m.index ≠ rEsp then some m.index else none) ∧
        (form.indexReg.isSome → form.scale = m.scale) ∧
        Decoded s (if m.hasSib then [m.sib] else []).length s' ∧
        s'.decinfo.operand = s.decinfo.operand ∧ s'.s0 = s.s0 := by
  unfold fetchForm
  rw [regOf_regM]
  by_cases hrm : m.rm = rEsp
  · -- the register number of `%esp` announces a second byte
    have hsib : m.hasSib = true := by simp [RM.hasSib, hmod, hrm]
    rw [if_pos hrm]
    rw [if_pos hsib] at h ⊢
    refine (instrFetch_byte h.take).bind fun w s₁ h₁ => ?_
    rcases h₁ with ⟨rfl, hdec, hops, hs0⟩
    have hbyte : (m.sib.setWidth 32).setWidth 8 = m.sib := by simp
    refine Ensures.of_ok (pure_run _ _) ?_
    simp only [hbyte, regOf_base, regOf_index, toNat_ss, RM.baseField, hsib, if_true, true_and]
    exact ⟨fun _ => trivial, hdec, hops, hs0⟩
  · have hsib : m.hasSib = false := by simp [RM.hasSib, hrm]
    rw [if_neg hrm]
    refine Ensures.of_ok (pure_run _ _) ?_
    simp only [RM.baseField, hsib, Bool.false_eq_true, if_false, false_and]
    refine ⟨trivial, trivial, fun hsome => absurd hsome (by simp), ?_, trivial, trivial⟩
    exact ⟨rfl, rfl, rfl, rfl, rfl, by simp, rfl⟩

theorem dispForm_eq {m : RM} (hmod : m.mod ≠ 3) :
    dispForm m.modrm (some m.baseField) =
      (if m.mod = 0 ∧ m.baseField = rEbp then none else some m.baseField, m.dispSize) := by
  have hle := mod_le m
  have h0 := mod_eq_iff m 0
  have h1 := mod_eq_iff m 1
  change _ ↔ m.mod = 0 at h0
  change _ ↔ m.mod = 1 at h1
  unfold dispForm RM.dispSize
  obtain hm | hm | hm : m.mod = 0 ∨ m.mod = 1 ∨ m.mod = 2 := by omega
  · rw [if_pos (h0.2 hm), hm]
    by_cases hbase : m.baseField = rEbp
    · simp [hbase]
    · simp [hbase]
  · rw [if_neg (by rw [h0, hm]; decide), if_pos (h1.2 hm), hm]
    simp
  · rw [if_neg (by rw [h0, hm]; decide), if_neg (by rw [h1, hm]; decide), hm]
    simp

theorem fetchDisp_spec {s : Machine} {m : RM} (h : s.Fetches (bytesOf m.disp m.dispSize)) :
    Ensures (fetchDisp m.dispSize) s fun _ s' =>
      s'.s0 = s.s0 + m.dispValue ∧ Decoded s m.dispSize s' ∧
        s'.decinfo.operand = s.decinfo.operand := by
  have hsize : m.dispSize = 0 ∨ m.dispSize = 1 ∨ m.dispSize = 4 := by
    unfold RM.dispSize
    split
    · split <;> simp
    · simp
    · simp
    · simp
  unfold fetchDisp RM.dispValue
  rcases hsize with hsz | hsz | hsz
  · -- no displacement, a byte that is extended with its sign, or four bytes
    rw [hsz, if_neg (by simp)]
    refine Ensures.of_ok (pure_run _ _) ⟨by simp, ?_, rfl⟩
    exact ⟨rfl, rfl, rfl, rfl, rfl, by simp, rfl⟩
  · rw [hsz] at h ⊢
    rw [if_pos (by simp)]
    refine (instrFetch_bytesOf h Nat.zero_lt_one (by decide)).bind fun w s₁ h₁ => ?_
    rcases h₁ with ⟨hbytes, hdec, hops, hs0⟩
    have hbyte : w.setWidth 8 = byteOf m.disp 0 := by
      rw [← hbytes 0 Nat.zero_lt_one]
      apply BitVec.eq_of_getLsbD_eq
      intro i hi
      simp only [getLsbD_byteOf, BitVec.getLsbD_setWidth, hi, decide_true, Bool.true_and,
        Nat.mul_zero, Nat.zero_add]
    refine Ensures.step (modify_run _ _) (Ensures.of_ok (pure_run _ _) ?_)
    rw [if_pos rfl, hbyte]
    exact ⟨congrArg (· + _) hs0, { hdec with }, hops⟩
  · rw [hsz] at h ⊢
    rw [if_pos (by simp)]
    have hspec := instrFetch_spec h (by simp) (by simp)
    rw [length_bytesOf] at hspec
    refine hspec.bind fun w s₁ h₁ => ?_
    rcases h₁ with ⟨rfl, hdec, hops, hs0⟩
    refine Ensures.step (modify_run _ _) (Ensures.of_ok (pure_run _ _) ?_)
    rw [if_neg (by decide), h.bytes.load_four]
    exact ⟨congrArg (· + _) hs0, { hdec with }, hops⟩

/-- What `add_base` and `add_index` add. -/
def AddrForm.base (r : Option (Fin 8)) (cpu : CPUState) : Word :=
  match r with
  | some r => cpu.gpr r
  | none => 0

theorem addBase_run (r : Option (Fin 8)) (s : Machine) :
    addBase r s = .ok ⟨⟩ { s with s0 := s.s0 + AddrForm.base r s.cpu } := by
  cases r with
  | none => simp [addBase, AddrForm.base]
  | some r => rfl

theorem addIndex_run (r : Option (Fin 8)) (scale : Nat) (s : Machine) :
    ∃ s1, addIndex r scale s =
      .ok ⟨⟩ { s with s0 := s.s0 + AddrForm.base r s.cpu <<< scale, s1 } := by
  cases r with
  | none => exact ⟨s.s1, by simp [addIndex, AddrForm.base]⟩
  | some r => exact ⟨_, rfl⟩

theorem base_baseField (m : RM) (cpu : CPUState) :
    AddrForm.base (if m.mod = 0 ∧ m.baseField = rEbp then none else some m.baseField) cpu =
      m.baseValue cpu := by
  unfold RM.baseValue
  split <;> rfl

theorem base_index {m : RM} {form : AddrForm} (cpu : CPUState)
    (hindex : form.indexReg = if m.hasSib ∧ m.index ≠ rEsp then some m.index else none)
    (hscale : form.indexReg.isSome → form.scale = m.scale) :
    AddrForm.base form.indexReg cpu <<< form.scale = m.indexValue cpu := by
  unfold RM.indexValue
  by_cases hsome : m.hasSib = true ∧ m.index ≠ rEsp
  · rw [if_pos hsome] at hindex ⊢
    rw [hscale (by simp [hindex]), hindex]
    rfl
  · rw [if_neg hsome] at hindex ⊢
    rw [hindex]
    simp [AddrForm.base]

/-- `s0` adds up the displacement, the base and the index, in this order. -/
theorem effectiveAddress_eq (m : RM) (cpu : CPUState) :
    0 + m.dispValue + m.baseValue cpu + m.indexValue cpu = m.effectiveAddress cpu := by
  have hzero : (0 : Word) + m.dispValue = m.dispValue := BitVec.zero_add _
  calc 0 + m.dispValue + m.baseValue cpu + m.indexValue cpu
      = m.dispValue + (m.baseValue cpu + m.indexValue cpu) := by rw [hzero, BitVec.add_assoc]
    _ = m.baseValue cpu + m.indexValue cpu + m.dispValue := BitVec.add_comm _ _

/-- `load_addr` decodes the bytes behind the ModR/M byte into the effective address. -/
theorem loadAddr_spec {s : Machine} {m : RM} {op : OperandId} (hmod : m.mod ≠ 3)
    (h : s.Fetches m.tail) :
    Ensures (loadAddr m.modrm op) s fun _ s' =>
      ∃ o, Fills s m.tail.length op o s' ∧
        o.Shows s (m.place s.cpu) (s.decinfo.operand op).width false := by
  have hassert : (ModRM.mod m.modrm != 3) = true := by
    rw [bne_iff_ne, ne_eq, mod_eq_iff]
    exact hmod
  have hstill : Decoded.Still s { s with s0 := 0 } := ⟨rfl, rfl, rfl, rfl, rfl, by simp, rfl⟩
  unfold loadAddr
  rw [hassert]
  refine Ensures.step (cAssert_true_run s) (Ensures.step (modify_run _ s) ?_)
  have hfetch : Machine.Fetches { s with s0 := 0 } m.tail := ⟨h.map, h.bytes, h.inside⟩
  -- the SIB byte, if there is one, and then the displacement
  refine (fetchForm_spec hmod hfetch).bind fun form s₁ h₁ => ?_
  rcases h₁ with ⟨hbase, hindex, hscale, hdec₁, hops₁, hs0₁⟩
  rw [hbase, dispForm_eq hmod]
  have hrest : s₁.Fetches (bytesOf m.disp m.dispSize) := hfetch.rest hdec₁
  generalize hreg : (if m.mod = 0 ∧ m.baseField = rEbp then none else some m.baseField) = baseReg
  refine (fetchDisp_spec hrest).bind fun disp s₂ h₂ => ?_
  rcases h₂ with ⟨hs0₂, hdec₂, hops₂⟩
  refine Ensures.step (addBase_run _ s₂) ?_
  rcases addIndex_run form.indexReg form.scale
    { s₂ with s0 := s₂.s0 + AddrForm.base baseReg s₂.cpu } with ⟨s1, hs1⟩
  refine Ensures.step hs1 (Ensures.step (get_run _) (Ensures.of_ok (modifyOperand_run _ _ _) ?_))
  have hdec := hstill.zero_trans (hdec₁.trans hdec₂)
  have hcpu : s₂.cpu = s.cpu := hdec.cpu
  -- what `s0` has added up is the effective address of the manual
  have hsum : s₂.s0 + AddrForm.base baseReg s₂.cpu +
      AddrForm.base form.indexReg s₂.cpu <<< form.scale = m.effectiveAddress s.cpu := by
    rw [hcpu, ← hreg, base_baseField, base_index s.cpu hindex hscale, hs0₂, hs0₁]
    exact effectiveAddress_eq m s.cpu
  have hplace : m.place s.cpu = .mem (m.effectiveAddress s.cpu) := by rw [RM.place, if_neg hmod]
  have hlength : m.tail.length = (if m.hasSib then [m.sib] else []).length + m.dispSize := by
    rw [RM.tail, List.length_append, length_bytesOf]
  rw [hplace, hlength]
  have hops : s₂.decinfo.operand = s.decinfo.operand := hops₂.trans hops₁
  have hdec' : Decoded s ((if m.hasSib then [m.sib] else []).length + m.dispSize)
      { s₂ with
        s0 := s₂.s0 + AddrForm.base baseReg s₂.cpu +
          AddrForm.base form.indexReg s₂.cpu <<< form.scale, s1 } :=
    { hdec with }
  refine ⟨_, hdec'.fills hops op _, rfl, hsum, ?_, fun hl => by cases hl⟩
  change (s₂.decinfo.operand op).width = _
  rw [hops]

/-! ## The bytes behind a ModR/M byte -/

/-- A ModR/M byte `b` with the SIB byte and the displacement that follow it at `a`. -/
def RM.behind (b : Byte) (mem : Nat → Byte) (a : Nat) : RM :=
  let m : RM := { modrm := b, sib := mem a, disp := 0 }
  { m with disp := load mem (if m.hasSib then a + 1 else a) 4 }

theorem RM.dispSize_le (m : RM) : m.dispSize ≤ 4 := by
  unfold RM.dispSize
  split
  · split <;> decide
  · decide
  · decide
  · decide

theorem holds_behind (b : Byte) (mem : Nat → Byte) (a : Nat) :
    Holds mem a (RM.behind b mem a).tail := by
  unfold RM.tail
  by_cases hsib : (RM.behind b mem a).hasSib
  · have hdisp : (RM.behind b mem a).disp = load mem (a + 1) 4 :=
      congrArg (fun i => load mem i 4) (if_pos hsib)
    rw [if_pos hsib, hdisp]
    exact (holds_singleton mem a).append_of
      (holds_bytesOf_load mem _ (RM.behind b mem a).dispSize_le)
  · have hdisp : (RM.behind b mem a).disp = load mem a 4 :=
      congrArg (fun i => load mem i 4) (if_neg hsib)
    rw [if_neg hsib, hdisp]
    exact (holds_nil mem a).append_of
      (holds_bytesOf_load mem _ (RM.behind b mem a).dispSize_le)

theorem RM.length_tail (m : RM) : m.tail.length = (if m.hasSib then 1 else 0) + m.dispSize := by
  rw [RM.tail, List.length_append, length_bytesOf]
  split <;> rfl

theorem shiftLeft_eq_mul_pow (x : Word) (k : Nat) : x <<< k = x * BitVec.ofNat 32 (2 ^ k) := by
  apply BitVec.eq_of_toNat_eq
  rw [BitVec.toNat_shiftLeft, BitVec.toNat_mul, BitVec.toNat_ofNat, Nat.shiftLeft_eq,
    Nat.mul_mod_mod]

/-- `load_addr` reads the SIB byte and the displacement that a ModR/M byte announces, and adds up
base, scaled index and displacement as the tables of the manual say. -/
theorem loadAddr_effectiveAddress {s : Machine} (b : Byte) (op : OperandId) {m : RM}
    (hm : m = RM.behind b s.bus.pmem s.decinfo.seqPc.toNat) (hmod : m.mod ≠ 3)
    (hmap : s.bus.pmemMap = registerPmem 0)
    (hin : s.decinfo.seqPc.toNat + ((if m.hasSib then 1 else 0) + m.dispSize) ≤ pmemSize) :
    ∃ s', loadAddr b op s = .ok ⟨⟩ s' ∧
      (s'.decinfo.operand op).type = .mem ∧
      (s'.decinfo.operand op).word =
        (if m.mod = 0 ∧ m.baseField = rEbp then 0 else s.cpu.gpr m.baseField) +
          (if m.hasSib ∧ m.index ≠ rEsp then
            s.cpu.gpr m.index * BitVec.ofNat 32 (2 ^ m.scale) else 0) + m.dispValue ∧
      s'.decinfo.seqPc =
        s.decinfo.seqPc + BitVec.ofNat 32 ((if m.hasSib then 1 else 0) + m.dispSize) ∧
      s'.cpu = s.cpu ∧ s'.bus = s.bus := by
  have hmodrm : m.modrm = b := by
    rw [hm]
    rfl
  have hfetches : s.Fetches m.tail := by
    refine ⟨hmap, ?_, ?_⟩
    · rw [hm]
      exact holds_behind _ _ _
    · rwa [m.length_tail]
  have hspec : Ensures (loadAddr m.modrm op) s _ := loadAddr_spec hmod hfetches
  rcases hspec with ⟨⟨⟩, s', hrun, o, hfills, hshows⟩
  have hplace : m.place s.cpu = .mem (m.effectiveAddress s.cpu) := by rw [RM.place, if_neg hmod]
  have ho : s'.decinfo.operand op = o := by
    rw [hfills.operand]
    exact Function.update_self _ _ _
  rw [hmodrm] at hrun
  rw [hplace] at hshows
  refine ⟨s', hrun, ?_, ?_, ?_, hfills.decoded.cpu, hfills.decoded.bus⟩
  · rw [ho]
    exact hshows.type
  · rw [ho, ← shiftLeft_eq_mul_pow]
    exact hshows.word
  · rw [← m.length_tail]
    exact hfills.decoded.seqPc

/-- `-0x4(%eax,%ecx,4)` with every register 3. -/
theorem loadAddr_effectiveAddress_sib :
    let s : Machine := { Machine.zero with
      cpu := { CPUState.zero with gpr := fun _ => 3 }
      bus := { Bus.zero with pmem := fun a => [(0x88 : Byte), 0xfc].getD a 0 } }
    ∃ s', loadAddr 0x44 .dest s = .ok ⟨⟩ s' ∧ (s'.decinfo.operand .dest).word = 11 ∧
      s'.decinfo.seqPc = 2 := by
  intro s
  rcases loadAddr_effectiveAddress (s := s) 0x44 .dest rfl (by decide) rfl (by decide) with
    ⟨s', hrun, -, hword, hpc, -⟩
  exact ⟨s', hrun, hword.trans (by decide), hpc.trans (by decide)⟩

/-! ## read_ModR_M -/

/-- The operand that the ModR/M byte names. -/
theorem readRm_spec {s : Machine} {m : RM} {op : OperandId} {loadVal : Bool}
    (hw : ValidWidth (s.decinfo.operand op).width) (h : s.Fetches m.tail)
    (hin : loadVal = true → (m.place s.cpu).InPmem (s.decinfo.operand op).width) :
    Ensures (if ModRM.mod m.modrm = 3 then decodeReg op ((ModRM.regM m.modrm).setWidth 32) loadVal
        else loadAddr m.modrm op >>= fun _ => if loadVal then loadMem op else pure ()) s
      fun _ s' => ∃ o, Fills s m.tail.length op o s' ∧
        o.Shows s (m.place s.cpu) (s.decinfo.operand op).width loadVal := by
  have hiff : ModRM.mod m.modrm = 3 ↔ m.mod = 3 := mod_eq_iff m 3
  -- mod 3 names a register, any other mod a place in memory
  by_cases hmod : m.mod = 3
  · have hplace : m.place s.cpu = .reg m.rm := by rw [RM.place, if_pos hmod]
    have htail : m.tail = [] := by simp [RM.tail, RM.hasSib, RM.dispSize, hmod, bytesOf]
    rw [if_pos (hiff.2 hmod), setWidth_regOf, regOf_regM, hplace, htail]
    exact decodeReg_spec m.rm loadVal hw
  · have hplace : m.place s.cpu = .mem (m.effectiveAddress s.cpu) := by rw [RM.place, if_neg hmod]
    rw [if_neg (by rwa [hiff])]
    refine (loadAddr_spec hmod h).bind fun _ s₁ h₁ => ?_
    rcases h₁ with ⟨o, hfills, hshows⟩
    cases loadVal with
    | false => exact Ensures.of_ok (pure_run _ _) ⟨o, hfills, hshows⟩
    | true =>
        have hself : s₁.decinfo.operand op = o := by
          rw [hfills.operand]
          exact Function.update_self _ _ _
        have hmap : s₁.bus.pmemMap = registerPmem 0 := hfills.decoded.bus ▸ h.map
        have hbytes : ∀ b, s₁.byteAt b = s.byteAt b := byteAt_decoded hfills.decoded
        rw [hplace] at hshows hin ⊢
        rcases @loadMem_run s₁ op _ _ hmap hw (hin rfl)
          (by rw [hself]; exact ⟨hshows.type, hshows.word, hshows.width, fun hl => by cases hl⟩)
          with ⟨v, hv, hval⟩
        rw [hself] at hv hval
        refine Ensures.of_ok hv ⟨{ o with val := v },
          ⟨hfills.decoded.trans (withOperand_still _ _ _), ?_⟩, ?_⟩
        · change Function.update s₁.decinfo.operand op _ = _
          rw [hfills.operand, Function.update_idem]
        · exact hval.of_decoded hfills.decoded

theorem RM.length_bytes (m : RM) : m.bytes.length = 1 + m.tail.length := by
  rw [RM.bytes, List.length_cons, Nat.add_comm]

/-- Both operands of a ModR/M byte. -/
theorem readModRM_spec {s : Machine} {m : RM} {rm reg : OperandId} {loadRm loadReg : Bool}
    (hne : rm ≠ reg) (hw : ValidWidth (s.decinfo.operand rm).width)
    (hw' : ValidWidth (s.decinfo.operand reg).width) (h : s.Fetches m.bytes)
    (hin : loadRm = true → (m.place s.cpu).InPmem (s.decinfo.operand rm).width) :
    Ensures (readModRM rm loadRm (some reg) loadReg) s fun _ s' =>
      ∃ o o', Decoded s m.bytes.length s' ∧ s'.decinfo.operand rm = o ∧
        s'.decinfo.operand reg = o' ∧
        o.Shows s (m.place s.cpu) (s.decinfo.operand rm).width loadRm ∧
        o'.Shows s (.reg m.reg) (s.decinfo.operand reg).width loadReg := by
  unfold readModRM
  refine (instrFetch_byte (Machine.Fetches.take (m := m.tail) h)).bind fun w s₁ h₁ => ?_
  rcases h₁ with ⟨rfl, hdec₁, hops₁, -⟩
  have hbyte : (m.modrm.setWidth 32).setWidth 8 = m.modrm := by simp
  rw [hbyte]
  refine Ensures.step (modify_run _ _) ?_
  have hstill : Decoded.Still s₁ { s₁ with
      decinfo := { s₁.decinfo with extOpcode := ModRM.reg m.modrm } } :=
    ⟨rfl, rfl, rfl, rfl, rfl, by simp, rfl⟩
  have hdec₂ := hdec₁.trans hstill
  -- the register operand comes first, and leaves the other one as it is
  rw [readReg, setWidth_regOf, regOf_reg]
  refine (@decodeReg_spec { s₁ with
      decinfo := { s₁.decinfo with extOpcode := ModRM.reg m.modrm } } reg m.reg loadReg
      (by rw [hops₁]; exact hw')).bind fun _ s₃ h₃ => ?_
  rcases h₃ with ⟨o', hfills, hshows⟩
  have hdec₃ := hdec₂.trans hfills.decoded
  have hrm : (s₃.decinfo.operand rm) = s.decinfo.operand rm := by
    rw [hfills.operand, Function.update_of_ne hne, hops₁]
  have hfetch : s₃.Fetches m.tail := Machine.Fetches.rest (l := [m.modrm]) h hdec₃
  have hcpu : s₃.cpu = s.cpu := hdec₃.cpu
  refine (@readRm_spec s₃ m rm loadRm (by rw [hrm]; exact hw) hfetch
    (by rw [hcpu, hrm]; exact hin)).mono fun _ s' h' => ?_
  rcases h' with ⟨o, hfills', hshows'⟩
  rw [hcpu, hrm] at hshows'
  rw [RM.length_bytes]
  refine ⟨o, o', hdec₃.trans hfills'.decoded, ?_, ?_, hshows'.of_decoded hdec₃, ?_⟩
  · rw [hfills'.operand]
    exact Function.update_self _ _ _
  · rw [hfills'.operand, Function.update_of_ne hne.symm, hfills.operand]
    exact Function.update_self _ _ _
  · rw [hops₁] at hshows
    exact hshows.of_decoded hdec₂

/-- The operand of a ModR/M byte whose `reg` field is not an operand. -/
theorem readModRM_none_spec {s : Machine} {m : RM} {rm : OperandId} {loadRm : Bool}
    (hw : ValidWidth (s.decinfo.operand rm).width) (h : s.Fetches m.bytes)
    (hin : loadRm = true → (m.place s.cpu).InPmem (s.decinfo.operand rm).width) :
    Ensures (readModRM rm loadRm none false) s fun _ s' =>
      ∃ o, Fills s m.bytes.length rm o s' ∧
        o.Shows s (m.place s.cpu) (s.decinfo.operand rm).width loadRm := by
  unfold readModRM
  refine (instrFetch_byte (Machine.Fetches.take (m := m.tail) h)).bind fun w s₁ h₁ => ?_
  rcases h₁ with ⟨rfl, hdec₁, hops₁, -⟩
  have hbyte : (m.modrm.setWidth 32).setWidth 8 = m.modrm := by simp
  rw [hbyte]
  refine Ensures.step (modify_run _ _) (Ensures.step (pure_run _ _) ?_)
  have hstill : Decoded.Still s₁ { s₁ with
      decinfo := { s₁.decinfo with extOpcode := ModRM.reg m.modrm } } :=
    ⟨rfl, rfl, rfl, rfl, rfl, by simp, rfl⟩
  have hdec₂ := hdec₁.trans hstill
  have hfetch := Machine.Fetches.rest (l := [m.modrm]) h hdec₂
  have hplace : m.place s₁.cpu = m.place s.cpu := by rw [hdec₁.cpu]
  refine (@readRm_spec _ m rm loadRm (by rw [hops₁]; exact hw) hfetch
    (by rw [hops₁]; rw [← hplace] at hin; exact hin)).mono fun _ s' h' => ?_
  rcases h' with ⟨o, hfills', hshows'⟩
  rw [hplace, hops₁] at hshows'
  rw [RM.length_bytes]
  refine ⟨o, ⟨hdec₂.trans hfills'.decoded, ?_⟩, hshows'.of_decoded hdec₂⟩
  rw [hfills'.operand, hops₁]

end Nemu
