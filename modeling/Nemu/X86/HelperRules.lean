import Nemu.X86.Decoding

/-!
# Relations that the helpers keep

Whatever preorder on machines holds across the primitive effects of the helpers holds across every
decode helper, and with the effects of execution added across every instruction.  Each later
invariant about instructions is one instance.
-/

namespace Nemu

open StateRules

/-! ## Lengths of operand texts -/

/-- No operand text is longer than this. -/
def opTextMax : Nat := 24

theorem length_hexText (v : Word) : (hexText v.toNat).length ≤ 8 :=
  (Nat.length_toDigits_le_iff (by decide) (by decide)).2 v.isLt

theorem length_regName {index : Word} {width : Nat} {name : List Char}
    (h : regName index width = some name) : name.length ≤ 3 := by
  have hall : ∀ names ∈ [regsl, regsw, regsb], ∀ name ∈ names, name.length ≤ 3 := by decide
  unfold regName at h
  split at h
  · exact hall regsl (by simp) name (List.mem_of_getElem? h)
  · exact hall regsb (by simp) name (List.mem_of_getElem? h)
  · exact hall regsw (by simp) name (List.mem_of_getElem? h)
  · cases h

theorem length_nameText (r : Option (Fin 8)) : (nameText r).length ≤ 4 := by
  have hall : ∀ r : Fin 8, (nameText (some r)).length ≤ 4 := by decide
  cases r with
  | none => exact Nat.zero_le 4
  | some r => exact hall r

theorem length_dispText (dispSize : Nat) (disp : Word) : (dispText dispSize disp).length ≤ 11 := by
  have hhex := length_hexText disp
  have hneg := length_hexText (-disp)
  unfold dispText
  by_cases hsize : dispSize = 0
  · simp [hsize]
  · rw [if_neg hsize, List.length_append]
    cases disp.msb with
    | false =>
        by_cases hzero : disp.toNat = 0
        · simp [hzero]
        · simp only [hzero, Bool.false_eq_true, if_false, List.length_cons, List.length_nil]
          omega
    | true =>
        by_cases hzero : (-disp).toNat = 0
        · simp [hzero]
        · simp only [hzero, if_true, if_false, List.length_cons, List.length_nil]
          omega

theorem length_addrText {form : AddrForm} (hscale : form.scale ≤ 3) (baseReg : Option (Fin 8))
    (dispSize : Nat) (disp : Word) :
    (addrText form baseReg dispSize disp).length ≤ opTextMax := by
  have hdigits : ∀ k ≤ 3, (Nat.toDigits 10 (1 <<< k)).length = 1 := by decide
  have hdisp := length_dispText dispSize disp
  have hbase := length_nameText baseReg
  have hindex := length_nameText form.indexReg
  -- the displacement, then at most "(%eax,%ebx,8)"
  have hfull : ∀ indexBuf : List Char, indexBuf.length ≤ 7 →
      (dispText dispSize disp ++ '(' :: nameText baseReg ++ indexBuf ++ [')']).length ≤
        opTextMax := by
    intro indexBuf hbuf
    simp only [List.length_append, List.length_cons, List.length_nil, opTextMax]
    omega
  have hshort : (dispText dispSize disp).length ≤ opTextMax := Nat.le_trans hdisp (by decide)
  unfold addrText
  cases hform : form.indexReg with
  | none =>
      dsimp only
      split
      · exact hshort
      · exact hfull [] (Nat.zero_le 7)
  | some r =>
      rw [hform] at hindex
      dsimp only
      rw [if_neg (by simp)]
      refine hfull _ ?_
      simp only [List.length_append, List.length_cons, hdigits _ hscale]
      omega

/-! ## The decode helpers -/

/-- A preorder that holds across the effects that decoding is made of. -/
class DecodeRel (R : Machine → Machine → Prop) : Prop extends IsPreorder Machine R where
  fetch : ∀ len, Within R (instrFetch len)
  load : ∀ addr len, Within R (rtlLm addr len)
  scratch : ∀ s s0 s1 ir, R s { s with s0, s1, ir }
  extOpcode : ∀ s extOpcode, R s { s with decinfo := { s.decinfo with extOpcode } }
  operand : ∀ s op o, o.str = (s.decinfo.operand op).str → R s (s.withOperand op o)
  text : ∀ s op (str : List Char), str.length ≤ opTextMax →
    R s (s.withOperand op { s.decinfo.operand op with str })

section Decode

variable {R : Machine → Machine → Prop} [DecodeRel R]

theorem getOperand_within (op : OperandId) : Within R (getOperand op) :=
  Within.get.bind fun _ => Within.pure _

theorem setVal_within (op : OperandId) (val : Word) : Within R (setVal op val) :=
  fun s => DecodeRel.operand s op _ rfl

theorem setPlace_within (op : OperandId) (type : OpType) (word : Word) :
    Within R (setPlace op type word) :=
  fun s => DecodeRel.operand s op _ rfl

theorem setOperandWidth_within (op : OperandId) (width : Nat) :
    Within R (setOperandWidth op width) :=
  fun s => DecodeRel.operand s op _ rfl

theorem printDop_within (op : OperandId) {text : List Char} (h : text.length ≤ opTextMax) :
    Within R (printDop op text) := by
  intro s
  refine DecodeRel.text s op _ ?_
  rw [List.length_take]
  exact Nat.le_trans (Nat.min_le_right _ _) h

theorem checkRegIndex_within (index : Word) : Within R (checkRegIndex index) := by
  intro s
  unfold checkRegIndex
  split
  · exact refl_of R s
  · exact refl_of R s

theorem rtlLr_within (r : Word) (width : Nat) : Within R (rtlLr r width) := by
  unfold rtlLr
  refine Within.get.bind fun s => ?_
  split
  · exact (checkRegIndex_within r).bind fun _ => Within.pure _
  · exact (checkRegIndex_within r).bind fun _ => Within.pure _
  · exact (checkRegIndex_within r).bind fun _ => Within.pure _
  · exact Within.throw _

theorem regNameOf_within (index : Word) (width : Nat) : Within R (regNameOf index width) := by
  unfold regNameOf
  cases regName index width with
  | none => exact Within.throw _
  | some name => exact Within.pure _

theorem printReg_within (op : OperandId) (index : Word) : Within R (printReg op index) := by
  refine (getOperand_within op).bind fun o => ?_
  refine (regNameOf_within index o.width).bind_of_ok fun name s s' hrun => ?_
  have hname : regName index o.width = some name := by
    unfold regNameOf at hrun
    cases hsome : regName index o.width with
    | none =>
        rw [hsome] at hrun
        cases hrun
    | some name' =>
        rw [hsome] at hrun
        cases hrun
        rfl
  have hlen := length_regName hname
  refine printDop_within op ?_
  rw [List.length_cons, opTextMax]
  omega

theorem decodeReg_within (op : OperandId) (r : Word) (loadVal : Bool) :
    Within R (decodeReg op r loadVal) := by
  have hload : Within R (loadReg op r) :=
    (getOperand_within op).bind fun o => (rtlLr_within r o.width).bind fun v => setVal_within op v
  unfold decodeReg
  refine (setPlace_within op .reg r).bind fun _ => ?_
  exact Within.ite (hload.bind fun _ => printReg_within op r) (printReg_within op r)

theorem loadMem_within (op : OperandId) : Within R (loadMem op) := by
  refine (getOperand_within op).bind fun o => ?_
  exact Within.bind (DecodeRel.load o.word o.width) fun v => setVal_within op v

theorem decodeOpI_within (op : OperandId) : Within R (decodeOpI op) := by
  refine (getOperand_within op).bind fun o => ?_
  refine Within.bind (DecodeRel.fetch o.width) fun imm => ?_
  refine (setPlace_within op .imm imm).bind fun _ => (setVal_within op imm).bind fun _ => ?_
  refine printDop_within op ?_
  have hhex := length_hexText imm
  simp only [List.length_cons, opTextMax]
  omega

theorem decodeOpR_within (op : OperandId) (loadVal : Bool) : Within R (decodeOpR op loadVal) :=
  Within.get.bind fun _ => decodeReg_within op _ loadVal

theorem decodeOpO_within (op : OperandId) (loadVal : Bool) : Within R (decodeOpO op loadVal) := by
  unfold decodeOpO
  refine Within.bind (DecodeRel.fetch 4) fun addr => ?_
  refine (setPlace_within op .mem addr).bind fun _ => ?_
  have htext : ('0' :: 'x' :: hexText addr.toNat).length ≤ opTextMax := by
    have hhex := length_hexText addr
    simp only [List.length_cons, opTextMax]
    omega
  exact Within.ite ((loadMem_within op).bind fun _ => printDop_within op htext)
    (printDop_within op htext)

theorem decodeOpSI_within (op : OperandId) : Within R (decodeOpSI op) := by
  refine (getOperand_within op).bind fun o => ?_
  exact (cAssert_within _).bind fun _ => Within.throw _

/-! ## load_addr and read_ModR_M -/

theorem fetchForm_within (m : ModRM) : Within R (fetchForm m) := by
  unfold fetchForm
  exact Within.ite (Within.bind (DecodeRel.fetch 1) fun _ => Within.pure _) (Within.pure _)

theorem fetchForm_scale {m : ModRM} {form : AddrForm} {s s' : Machine}
    (h : fetchForm m s = .ok form s') : form.scale ≤ 3 := by
  unfold fetchForm at h
  split at h
  · rcases bind_eq_ok.1 h with ⟨b, s₁, -, hform⟩
    cases hform
    have hlt := (SIB.ss (b.setWidth 8)).isLt
    change (SIB.ss (b.setWidth 8)).toNat ≤ 3
    omega
  · cases h
    exact Nat.zero_le 3

theorem fetchDisp_within (dispSize : Nat) : Within R (fetchDisp dispSize) := by
  unfold fetchDisp
  refine Within.ite ?_ (Within.pure _)
  refine Within.bind (DecodeRel.fetch dispSize) fun disp => ?_
  exact Within.bind (Within.modify fun s => DecodeRel.scratch s _ _ _) fun _ => Within.pure _

theorem addBase_within (r : Option (Fin 8)) : Within R (addBase r) := by
  cases r with
  | none => exact Within.pure _
  | some r => exact Within.modify fun s => DecodeRel.scratch s _ _ _

theorem addIndex_within (r : Option (Fin 8)) (scale : Nat) : Within R (addIndex r scale) := by
  cases r with
  | none => exact Within.pure _
  | some r =>
      refine Within.get.bind fun s => ?_
      refine Within.bind (Within.modify fun s => DecodeRel.scratch s _ _ _) fun _ => ?_
      exact Within.modify fun s => DecodeRel.scratch s _ _ _

theorem loadAddr_within (m : ModRM) (rm : OperandId) : Within R (loadAddr m rm) := by
  refine (cAssert_within _).bind fun _ => ?_
  refine Within.bind (Within.modify fun s => DecodeRel.scratch s _ _ _) fun _ => ?_
  refine (fetchForm_within m).bind_of_ok fun form _ _ hform => ?_
  refine (fetchDisp_within _).bind fun disp => ?_
  refine (addBase_within _).bind fun _ => (addIndex_within _ _).bind fun _ => ?_
  refine Within.get.bind fun s s' => ?_
  -- the place and the text, one after the other
  have hplace := DecodeRel.operand (R := R) s' rm
    { s'.decinfo.operand rm with type := .mem, word := s.s0 } rfl
  have htext := DecodeRel.text (R := R) (s'.withOperand rm
    { s'.decinfo.operand rm with type := .mem, word := s.s0 }) rm _
    (length_addrText (fetchForm_scale hform) (dispForm m form.baseReg).1
      (dispForm m form.baseReg).2 disp)
  rw [withOperand_self, withOperand_idem] at htext
  exact trans_of R hplace htext

theorem readModRM_within (rm : OperandId) (loadRmVal : Bool) (reg : Option OperandId)
    (loadRegVal : Bool) : Within R (readModRM rm loadRmVal reg loadRegVal) := by
  refine Within.bind (DecodeRel.fetch 1) fun b => ?_
  refine Within.bind (Within.modify fun s => DecodeRel.extOpcode s _) fun _ => ?_
  refine Within.bind (R := R) ?_ fun _ => ?_
  · cases reg with
    | none => exact Within.pure _
    | some reg => exact decodeReg_within reg _ loadRegVal
  · refine Within.ite (decodeReg_within rm _ loadRmVal) ?_
    exact (loadAddr_within _ rm).bind fun _ => Within.ite (loadMem_within rm) (Within.pure _)

theorem decodeHelper_within (d : DHelper) : Within R d.run := by
  cases d with
  -- every helper is a sequence of the operations that `R` is closed under
  | movG2E => exact readModRM_within _ _ _ _
  | movE2G => exact readModRM_within _ _ _ _
  | I2E => exact (readModRM_within _ _ _ _).bind fun _ => decodeOpI_within _
  | movI2E => exact (readModRM_within _ _ _ _).bind fun _ => decodeOpI_within _
  | movI2r => exact (decodeOpR_within _ _).bind fun _ => decodeOpI_within _
  | E => exact readModRM_within _ _ _ _
  | gp7E => exact readModRM_within _ _ _ _
  | SI2E =>
      refine (getOperand_within _).bind fun _ => (cAssert_within _).bind fun _ => ?_
      refine (readModRM_within _ _ _ _).bind fun _ => ?_
      exact (setOperandWidth_within _ _).bind fun _ => decodeOpSI_within _
  | gp21E =>
      refine (readModRM_within _ _ _ _).bind fun _ => ?_
      refine (setPlace_within _ _ _).bind fun _ => (setVal_within _ _).bind fun _ => ?_
      exact printDop_within _ (by decide)
  | gp2cl2E =>
      refine (readModRM_within _ _ _ _).bind fun _ => (setPlace_within _ _ _).bind fun _ => ?_
      refine (rtlLr_within _ _).bind fun v => (setVal_within _ v).bind fun _ => ?_
      exact printDop_within _ (by decide)
  | gp2Ib2E =>
      refine (readModRM_within _ _ _ _).bind fun _ => ?_
      exact (setOperandWidth_within _ _).bind fun _ => decodeOpI_within _
  | O2a => exact (decodeOpO_within _ _).bind fun _ => decodeReg_within _ _ _
  | a2O => exact (decodeReg_within _ _ _).bind fun _ => decodeOpO_within _ _

end Decode

/-! ## Execution -/

/-- The effects that execution adds, apart from printing. -/
class ExecRel (R : Machine → Machine → Prop) : Prop extends DecodeRel R where
  store : ∀ addr v len, Within R (rtlSm addr v len)
  gpr : ∀ s gpr, R s { s with cpu := { s.cpu with gpr } }
  skipRef : Within R (onBus difftestSkipRef)
  exit : ∀ s (nemuState : NEMUState), nemuState.state ≠ .nemuStop → R s { s with nemuState }
  opcode : ∀ s opcode seqPc, R s { s with decinfo := { s.decinfo with opcode, seqPc } }

/-- An instruction prints its text once, at its end: `R` holds across what is silent, and `S` across
what may have printed. -/
class PrintRel (R S : Machine → Machine → Prop) : Prop extends ExecRel R where
  silent : ∀ s s', R s s' → S s s'
  before : ∀ s s' s'', R s s' → S s' s'' → S s s''
  behind : ∀ s s' s'', S s s' → R s' s'' → S s s''
  print : ∀ text, text.length ≤ 14 → Within S (printAsm text)
  template : Within S (printAsmTemplate2 ['m', 'o', 'v'])

section Execute

variable {R S : Machine → Machine → Prop}

theorem Within.silent [PrintRel R S] {α : Type} {x : Exec α} (h : Within R x) : Within S x :=
  fun s => PrintRel.silent s _ (h s)

/-- A silent part and what follows it. -/
theorem Within.andThen [PrintRel R S] {α β : Type} {x : Exec α} {f : α → Exec β}
    (hx : Within R x) (hf : ∀ a, Within S (f a)) : Within S (x >>= f) := by
  intro s
  cases hrun : x s with
  | ok a s' =>
      rw [bind_ok hrun]
      exact PrintRel.before s s' _ (hx.ok hrun) (hf a s')
  | error e s' =>
      rw [bind_error hrun]
      have hs := hx s
      rw [hrun] at hs
      exact PrintRel.silent s s' hs

/-- What may have printed, and a silent part behind it. -/
theorem Within.andSilent [PrintRel R S] {α β : Type} {x : Exec α} {y : Exec β}
    (hx : Within S x) (hy : Within R y) : Within S (x >>= fun _ => y) := by
  intro s
  cases hrun : x s with
  | ok a s' =>
      rw [bind_ok hrun]
      exact PrintRel.behind s s' _ (hx.ok hrun) (hy s')
  | error e s' =>
      rw [bind_error hrun]
      have hs := hx s
      rwa [hrun] at hs

theorem rtlSr_within [ExecRel R] (r src : Word) (width : Nat) : Within R (rtlSr r src width) := by
  unfold rtlSr
  split
  · exact (checkRegIndex_within r).bind fun _ => Within.modify fun s => ExecRel.gpr s _
  · exact (checkRegIndex_within r).bind fun _ => Within.modify fun s => ExecRel.gpr s _
  · exact (checkRegIndex_within r).bind fun _ => Within.modify fun s => ExecRel.gpr s _
  · exact Within.throw _

theorem operandWrite_within [ExecRel R] (op : OperandId) (src : Word) :
    Within R (operandWrite op src) := by
  refine (getOperand_within op).bind fun o => ?_
  split
  · exact rtlSr_within _ _ _
  · exact ExecRel.store _ _ _
  · exact Within.throw _

theorem execMov_within [PrintRel R S] : Within S execMov := by
  refine Within.andThen (getOperand_within (R := R) .src) fun src => ?_
  exact Within.andThen (operandWrite_within (R := R) .dest src.val) fun _ => PrintRel.template R

theorem execInv_within [PrintRel R S] : Within S execInv := by
  refine Within.andThen (R := R) Within.get fun s => ?_
  refine Within.andThen (R := R) (Within.modify fun s' => ExecRel.opcode s' _ _) fun _ => ?_
  refine Within.andThen (R := R) (DecodeRel.fetch 4) fun _ => ?_
  refine Within.andThen (R := R) (DecodeRel.fetch 4) fun _ => ?_
  refine Within.andThen (R := R) (Within.modify fun s' => ExecRel.exit s' _ (by simp)) fun _ => ?_
  exact PrintRel.print R _ (by decide)

theorem execNemuTrap_within [PrintRel R S] : Within S execNemuTrap := by
  refine Within.andThen (R := R) ExecRel.skipRef fun _ => ?_
  refine Within.andThen (R := R) Within.get fun s => ?_
  refine Within.andThen (R := R) (Within.modify fun s' => ExecRel.exit s' _ (by simp)) fun _ => ?_
  exact PrintRel.print R _ (by decide)

theorem setWidth_within [ExecRel R] (width : Nat) : Within R (setWidth width) := by
  intro s
  let w := if width = 0 then if s.decinfo.isOperandSize16 then 2 else 4 else width
  let widen := fun (s : Machine) op => s.withOperand op { s.decinfo.operand op with width := w }
  have hwiden : ∀ s op, R s (widen s op) := fun s op => DecodeRel.operand s op _ rfl
  have hall : widen (widen (widen s .src) .src2) .dest =
      { s with
        decinfo := { s.decinfo with
          operand := fun op => { s.decinfo.operand op with width := w } } } := by
    simp only [widen, Machine.withOperand]
    congr 2
    funext op
    cases op <;> rfl
  have hstep := trans_of R (hwiden s .src) (trans_of R (hwiden _ .src2) (hwiden _ .dest))
  rw [hall] at hstep
  exact hstep

theorem fetchEntry_within [ExecRel R] (escape : Nat) : Within R (fetchEntry escape) := by
  refine Within.bind (DecodeRel.fetch 1) fun b => ?_
  refine Within.bind (Within.modify fun s => ExecRel.opcode s _ _) fun _ => ?_
  exact (setWidth_within _).bind fun _ => Within.pure _

theorem runDecode_within [ExecRel R] (e : OpcodeEntry) : Within R e.runDecode := by
  unfold OpcodeEntry.runDecode
  cases e.decode with
  | none => exact Within.pure _
  | some d => exact decodeHelper_within d

theorem execHelper_within [PrintRel R S] (hsize : ∀ b, Within R (setOperandSize16 b))
    {idex : OpcodeEntry → Exec Unit} (hidex : ∀ e, Within S (idex e)) (x : EHelper) :
    Within S (x.run idex) := by
  cases x with
  | inv => exact execInv_within (R := R)
  | mov => exact execMov_within (R := R)
  | nemuTrap => exact execNemuTrap_within (R := R)
  | operandSize =>
      refine Within.andThen (hsize true) fun _ => ?_
      refine Within.andThen (fetchEntry_within (R := R) 0) fun e => ?_
      exact Within.andSilent (hidex e) (hsize false)
  | twoByteEsc => exact Within.andThen (fetchEntry_within (R := R) _) hidex
  | group g => exact Within.andThen (R := R) Within.get fun s => hidex _

/-- By induction on the nesting of prefixes. -/
theorem idex_within [PrintRel R S] (hsize : ∀ b, Within R (setOperandSize16 b)) (fuel : Nat)
    (e : OpcodeEntry) : Within S (idex fuel e) := by
  induction fuel generalizing e with
  | zero => exact Within.silent (R := R) (Within.throw _)
  | succ fuel ih =>
      exact Within.andThen (runDecode_within (R := R) e) fun _ => execHelper_within hsize ih _

theorem isaExec_within [PrintRel R S] (hsize : ∀ b, Within R (setOperandSize16 b)) :
    Within S isaExec :=
  Within.andThen (fetchEntry_within (R := R) 0) fun e => idex_within hsize idexFuel e

end Execute

/-! ## An instance -/

/-- `B` relates the buses, `is_jmp` stays, and so does `is_operand_size_16` if `size` says so; the
guest is not stopped. -/
structure Keeps (B : Bus → Bus → Prop) (size : Bool) (s s' : Machine) : Prop where
  bus : B s.bus s'.bus
  isJmp : s'.decinfo.isJmp = s.decinfo.isJmp
  state : s.nemuState.state ≠ .nemuStop → s'.nemuState.state ≠ .nemuStop
  size16 : size = true → s'.decinfo.isOperandSize16 = s.decinfo.isOperandSize16

section Keeps

variable {B : Bus → Bus → Prop} [BusRel B] {size : Bool}

instance : IsPreorder Machine (Keeps B size) where
  refl s := ⟨refl_of B s.bus, rfl, fun h => h, fun _ => rfl⟩
  trans _ _ _ h h' :=
    ⟨trans_of B h.bus h'.bus, h'.isJmp.trans h.isJmp, h'.state ∘ h.state,
      fun hsize => (h'.size16 hsize).trans (h.size16 hsize)⟩

omit [BusRel B] in
theorem onBus_keeps {α : Type} {x : OnBus α} (hx : Within B x) :
    Within (Keeps B size) (onBus x) := by
  intro s
  rw [final_onBus]
  exact ⟨hx s.bus, rfl, fun h => h, fun _ => rfl⟩

/-- What changes neither the bus, nor the run state, nor the two flags. -/
theorem Keeps.of_eq {s s' : Machine} (hbus : s'.bus = s.bus) (hstate : s'.nemuState = s.nemuState)
    (hjmp : s'.decinfo.isJmp = s.decinfo.isJmp)
    (hsize : s'.decinfo.isOperandSize16 = s.decinfo.isOperandSize16) : Keeps B size s s' :=
  ⟨hbus ▸ refl_of B s.bus, hjmp, fun h => by rwa [hstate], fun _ => hsize⟩

theorem strcatfBytebuf_keeps (text : List Char) : Within (Keeps B size) (strcatfBytebuf text) :=
  Within.modify fun _ => Keeps.of_eq rfl rfl rfl rfl

theorem strcatfBytebuf_forM_keeps (f : Nat → List Char) (l : List Nat) :
    Within (Keeps B size) (l.forM fun i => strcatfBytebuf (f i)) := by
  induction l with
  | nil => exact Within.pure _
  | cons i l ih => exact (strcatfBytebuf_keeps (f i)).bind fun _ => ih

theorem instrFetch_keeps (len : Nat) : Within (Keeps B size) (instrFetch len) := by
  refine Within.get.bind fun s => ?_
  refine (onBus_keeps (paddrRead_within s.decinfo.seqPc len)).bind fun instr => ?_
  refine Within.bind (Within.modify fun _ => Keeps.of_eq rfl rfl rfl rfl) fun _ => ?_
  refine (strcatfBytebuf_forM_keeps _ _).bind fun _ => ?_
  exact Within.bind (Within.modify fun _ => Keeps.of_eq rfl rfl rfl rfl) fun _ => Within.pure _

theorem printAsm_keeps (text : List Char) : Within (Keeps B size) (printAsm text) :=
  Within.modify fun _ => Keeps.of_eq rfl rfl rfl rfl

instance : ExecRel (Keeps B size) where
  fetch := instrFetch_keeps
  load addr len := onBus_keeps (paddrRead_within addr len)
  scratch _ _ _ _ := Keeps.of_eq rfl rfl rfl rfl
  extOpcode _ _ := Keeps.of_eq rfl rfl rfl rfl
  operand _ _ _ _ := Keeps.of_eq rfl rfl rfl rfl
  text _ _ _ _ := Keeps.of_eq rfl rfl rfl rfl
  store addr v len := onBus_keeps (paddrWrite_within addr v len)
  gpr _ _ := Keeps.of_eq rfl rfl rfl rfl
  skipRef := onBus_keeps BusRel.skipRef
  exit s _ h := ⟨refl_of B s.bus, rfl, fun _ => h, fun _ => rfl⟩
  opcode _ _ _ := Keeps.of_eq rfl rfl rfl rfl

instance : PrintRel (Keeps B size) (Keeps B size) where
  silent _ _ h := h
  before _ _ _ h h' := trans_of (Keeps B size) h h'
  behind _ _ _ h h' := trans_of (Keeps B size) h h'
  print text _ := printAsm_keeps text
  template := by
    refine (getOperand_within .src).bind fun src => (getOperand_within .dest).bind fun dest => ?_
    exact printAsm_keeps _

theorem setOperandSize16_keeps (b : Bool) : Within (Keeps B false) (setOperandSize16 b) :=
  fun s => ⟨refl_of B s.bus, rfl, fun h => h, fun h => by cases h⟩

/-- `update_pc` touches `pc` and `is_jmp` alone, so that everything else of `Keeps` holds across
`exec_once`. -/
structure KeepsOnce (B : Bus → Bus → Prop) (s s' : Machine) : Prop where
  bus : B s.bus s'.bus
  state : s.nemuState.state ≠ .nemuStop → s'.nemuState.state ≠ .nemuStop

instance : IsPreorder Machine (KeepsOnce B) where
  refl s := ⟨refl_of B s.bus, fun h => h⟩
  trans _ _ _ h h' := ⟨trans_of B h.bus h'.bus, h'.state ∘ h.state⟩

theorem checkTrace_within {R : Machine → Machine → Prop} [IsPreorder Machine R] :
    Within R checkTrace := by
  intro s
  unfold checkTrace
  split
  · exact refl_of R s
  · exact refl_of R s

theorem execOnce_keepsOnce : Within (KeepsOnce B) execOnce := by
  have hisa : Within (KeepsOnce B) isaExec := by
    intro s
    have hkeeps : Keeps B false s (final (isaExec s)) :=
      isaExec_within (R := Keeps B false) setOperandSize16_keeps s
    exact ⟨hkeeps.bus, hkeeps.state⟩
  have hpc : Within (KeepsOnce B) updatePc := by
    refine Within.modify fun s => ?_
    cases s.decinfo.isJmp <;> exact ⟨refl_of B s.bus, fun h => h⟩
  refine Within.get.bind fun s₀ => Within.bind (R := KeepsOnce B) (fun s => ?_) fun _ => ?_
  · exact ⟨refl_of B s.bus, fun h => h⟩
  · refine hisa.bind fun _ => hpc.bind fun _ => checkTrace_within.bind fun _ => ?_
    exact Within.get.bind fun s => Within.pure _

end Keeps

end Nemu
