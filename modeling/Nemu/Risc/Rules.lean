import Nemu.Memory.ByteStore
import Nemu.Risc.Machine

/-!
# What the shared helpers compute

Decoding fills in operands and changes nothing else.  The execution helpers are specified for
accesses inside `pmem`, which is registered at an arbitrary base.
-/

namespace Nemu
namespace Risc

open LittleEndian StateRules

/-! ## Between instructions -/

/-- What holds whenever no instruction is being executed. -/
structure Machine.Boundary (base : Word) (s : Machine) : Prop where
  map : s.bus.pmemMap = registerPmem base
  isJmp : s.decinfo.isJmp = false
  zero : s.cpu.gpr 0 = 0

/-- The word that the guest has at an address. -/
def Machine.wordAt (base : Word) (s : Machine) (addr : Word) : Word :=
  load (fun k => s.bus.guestByte base (addr + BitVec.ofNat 32 k)) 0 4

/-! ## Operands -/

def Machine.withOperands (s : Machine) (ops : OperandId → Operand) : Machine :=
  { s with decinfo := { s.decinfo with operand := ops } }

/-- The two numbers in each operand; its text and type do not matter to what is computed. -/
def contents (ops : OperandId → Operand) : OperandId → Word × Word :=
  fun op => ((ops op).word, (ops op).val)

/-- What was filled in last. -/
theorem contents_self {ops : OperandId → Operand} {c : OperandId → Word × Word} {op : OperandId}
    {v : Word × Word} (h : contents ops = Function.update c op v) : contents ops op = v := by
  rw [h, Function.update_self]

/-- What was filled in before. -/
theorem contents_of_ne {ops : OperandId → Operand} {c : OperandId → Word × Word}
    {op o : OperandId} {v : Word × Word} (hne : o ≠ op) (h : contents ops = Function.update c op v) :
    contents ops o = c o := by
  rw [h, Function.update_of_ne hne]

/-- The run of `x` from `s` fills in operands with the contents `c`, and changes nothing else. -/
def Decodes (x : Exec Unit) (s : Machine) (c : OperandId → Word × Word) : Prop :=
  ∃ ops, x s = .ok ⟨⟩ (s.withOperands ops) ∧ contents ops = c

theorem Decodes.bind {x y : Exec Unit} {s : Machine} {c c' : OperandId → Word × Word}
    (hx : Decodes x s c) (hy : ∀ ops, contents ops = c → Decodes y (s.withOperands ops) c') :
    Decodes (x >>= fun _ => y) s c' := by
  rcases hx with ⟨ops, hrun, hc⟩
  rcases hy ops hc with ⟨ops', hrun', hc'⟩
  exact ⟨ops', (bind_ok hrun).trans hrun', hc'⟩

/-- A first part that only looks at the state. -/
theorem Decodes.look {α : Type} {x : Exec α} {f : α → Exec Unit} {s : Machine} {a : α}
    {c : OperandId → Word × Word} (hx : x s = .ok a s) (hf : Decodes (f a) s c) :
    Decodes (x >>= f) s c := by
  rcases hf with ⟨ops, hrun, hc⟩
  exact ⟨ops, (bind_ok hx).trans hrun, hc⟩

theorem modifyOperand_decodes (op : OperandId) (f : Operand → Operand) (s : Machine) :
    Decodes (modifyOperand op f) s (Function.update (contents s.decinfo.operand) op
      ((f (s.decinfo.operand op)).word, (f (s.decinfo.operand op)).val)) := by
  refine ⟨_, rfl, ?_⟩
  funext o
  by_cases h : o = op
  · subst h
    rw [Function.update_self, contents, Function.update_self]
  · rw [Function.update_of_ne h, contents, Function.update_of_ne h]
    rfl

theorem printDop_decodes (op : OperandId) (text : List Char) (s : Machine) :
    Decodes (printDop op text) s (contents s.decinfo.operand) := by
  have h := modifyOperand_decodes op (fun o => { o with str := text.take (opStrSize - 1) }) s
  -- the text is no part of the contents
  have hsame : Function.update (contents s.decinfo.operand) op
      ((s.decinfo.operand op).word, (s.decinfo.operand op).val) = contents s.decinfo.operand :=
    Function.update_eq_self op _
  rwa [hsame] at h

theorem decodeOpI_decodes (op : OperandId) (v : Word) (s : Machine) :
    Decodes (decodeOpI op v) s (Function.update (contents s.decinfo.operand) op (v, v)) := by
  refine (modifyOperand_decodes op _ s).bind fun ops hops => ?_
  rw [← hops]
  exact printDop_decodes op _ (s.withOperands ops)

/-! ## Fields of an instruction -/

/-- Two neighbouring fields. -/
theorem extractLsb'_split (w : Word) (start m n : Nat) :
    w.extractLsb' start (m + n) = w.extractLsb' (start + n) m ++ w.extractLsb' start n :=
  (BitVec.extractLsb'_append_extractLsb'_eq_extractLsb' rfl).symm

/-! ## Registers -/

/-- A register number as the decoder holds it. -/
def regWord (i : Fin 32) : Word := BitVec.ofNat 32 i.val

theorem regWord_toNat (i : Fin 32) : (regWord i).toNat = i.val := by
  have hi := i.isLt
  rw [regWord, BitVec.toNat_ofNat]
  omega

theorem regWord_inj {i j : Fin 32} (h : regWord i = regWord j) : i = j := by
  have hnat := congrArg BitVec.toNat h
  rw [regWord_toNat, regWord_toNat] at hnat
  exact Fin.ext hnat

theorem checkRegIndex_run (i : Fin 32) (s : Machine) :
    checkRegIndex (regWord i) s = .ok i s := by
  have hlt : (regWord i).toNat < 32 := by
    rw [regWord_toNat]
    exact i.isLt
  rw [checkRegIndex, dif_pos hlt]
  congr 1
  exact Fin.ext (regWord_toNat i)

theorem regWord_eq_zero {i : Fin 32} : regWord i = 0 ↔ i = 0 :=
  ⟨fun h => regWord_inj (j := 0) h, fun h => congrArg regWord h⟩

/-- Register 0 needs no case of its own as long as it holds 0. -/
theorem rtlLr_run (i : Fin 32) {s : Machine} (hzero : s.cpu.gpr 0 = 0) :
    rtlLr (regWord i) s = .ok (s.cpu.gpr i) s := by
  by_cases h : i = 0
  · subst h
    rw [rtlLr, if_neg (not_not.2 (regWord_eq_zero.2 rfl)), hzero]
    rfl
  · rw [rtlLr, if_pos (fun hr => h (regWord_eq_zero.1 hr)), bind_ok (checkRegIndex_run i s)]
    rfl

/-- The register file after a write to `rd`. -/
def CPUState.write (cpu : CPUState) (rd : Fin 32) (v : Word) : Fin 32 → Word :=
  if rd.val = 0 then cpu.gpr else Function.update cpu.gpr rd v

theorem rtlSr_run (rd : Fin 32) (v : Word) (s : Machine) :
    rtlSr (regWord rd) v s = .ok ⟨⟩ { s with cpu := { s.cpu with gpr := s.cpu.write rd v } } := by
  by_cases h : rd = 0
  · subst h
    rw [rtlSr, if_neg (not_not.2 (regWord_eq_zero.2 rfl))]
    rfl
  · rw [rtlSr, if_pos (fun hr => h (regWord_eq_zero.1 hr)), bind_ok (checkRegIndex_run rd s)]
    -- the source tests the number and not the register
    have hval : ¬ rd.val = 0 := fun hval => h (Fin.ext hval)
    rw [CPUState.write, if_neg hval]
    rfl

theorem loadOperand_decodes (op : OperandId) (i : Fin 32) (loadVal : Bool) {s : Machine}
    (hzero : s.cpu.gpr 0 = 0) :
    Decodes (loadOperand op (regWord i) loadVal) s (Function.update (contents s.decinfo.operand) op
      ((s.decinfo.operand op).word,
        if loadVal then s.cpu.gpr i else (s.decinfo.operand op).val)) := by
  cases loadVal with
  | false => exact ⟨_, rfl, (Function.update_eq_self op (contents s.decinfo.operand)).symm⟩
  | true => exact .look (rtlLr_run i hzero) (modifyOperand_decodes op _ s)

section Decode

variable {regsl : List (List Char)} (hregsl : regsl.length = 32)

include hregsl in
theorem regNameOf_run (i : Fin 32) (s : Machine) :
    ∃ name, regNameOf regsl (regWord i) s = .ok name s := by
  have hi : i.val < regsl.length := by
    rw [hregsl]
    exact i.isLt
  refine ⟨regsl[i.val], ?_⟩
  rw [regNameOf, regWord_toNat, List.getElem?_eq_getElem hi]
  rfl

include hregsl in
theorem printRegName_decodes (op : OperandId) (i : Fin 32) (s : Machine) :
    Decodes (regNameOf regsl (regWord i) >>= printDop op) s (contents s.decinfo.operand) := by
  rcases regNameOf_run hregsl i s with ⟨name, hname⟩
  exact .look hname (printDop_decodes op name s)

include hregsl in
/-- Without `load_val` the old value stays. -/
theorem decodeOpR_decodes (op : OperandId) (i : Fin 32) (loadVal : Bool) {s : Machine}
    (hzero : s.cpu.gpr 0 = 0) :
    Decodes (decodeOpR regsl op (regWord i) loadVal) s
      (Function.update (contents s.decinfo.operand) op
        (regWord i, if loadVal then s.cpu.gpr i else (s.decinfo.operand op).val)) := by
  refine (modifyOperand_decodes op _ s).bind fun ops hops => ?_
  refine (loadOperand_decodes op i loadVal (s := s.withOperands ops) hzero).bind fun ops' hops' => ?_
  have hcontents : contents ops' = Function.update (contents s.decinfo.operand) op
      (regWord i, if loadVal then s.cpu.gpr i else (s.decinfo.operand op).val) := by
    -- the number has been filled in, and the value is still the old one
    have hop : contents ops op = (regWord i, (s.decinfo.operand op).val) :=
      (congrFun hops op).trans (Function.update_self _ _ _)
    have hword : (ops op).word = regWord i := congrArg Prod.fst hop
    have hval : (ops op).val = (s.decinfo.operand op).val := congrArg Prod.snd hop
    rw [hops']
    change Function.update (contents ops) op ((ops op).word, if loadVal then s.cpu.gpr i
      else (ops op).val) = _
    rw [hword, hval, hops, Function.update_idem]
  rw [← hcontents]
  exact printRegName_decodes hregsl op i ((s.withOperands ops).withOperands ops')

include hregsl in
theorem decodeAddr_decodes (i : Fin 32) (simm : Word) {s : Machine} (hzero : s.cpu.gpr 0 = 0) :
    Decodes (decodeAddr regsl (regWord i) simm) s
      (Function.update (Function.update (contents s.decinfo.operand) .src2 (simm, simm)) .src
        (s.cpu.gpr i + simm, s.cpu.gpr i)) := by
  refine (decodeOpR_decodes hregsl .src i true hzero).bind fun ops hops => ?_
  refine (decodeOpI_decodes .src2 simm _).bind fun ops' hops' => ?_
  change contents ops' = Function.update (contents ops) .src2 (simm, simm) at hops'
  rw [hops] at hops'
  -- both operands are there: the base register and the offset
  have hsrc : contents ops' .src = (regWord i, s.cpu.gpr i) := by
    rw [hops', Function.update_of_ne (by decide), Function.update_self]
    rfl
  have hsrc2 : contents ops' .src2 = (simm, simm) := by
    rw [hops', Function.update_self]
  have hword : (ops' .src).word = regWord i := congrArg Prod.fst hsrc
  let t := (s.withOperands ops).withOperands ops'
  have hname : ∃ name, regNameOf regsl (t.decinfo.operand .src).word t = .ok name t := by
    change ∃ name, regNameOf regsl (ops' .src).word t = .ok name t
    rw [hword]
    exact regNameOf_run hregsl i t
  rcases hname with ⟨name, hname⟩
  refine .look rfl (.look rfl (.look hname ?_))
  refine (printDop_decodes .src _ t).bind fun ops'' hops'' => ?_
  have hadd := modifyOperand_decodes .src
    (fun o => { o with word := o.val + (ops' .src2).val }) (t.withOperands ops'')
  have hval : (ops'' .src).val = s.cpu.gpr i :=
    congrArg Prod.snd ((congrFun hops'' .src).trans hsrc)
  have hval2 : (ops' .src2).val = simm := congrArg Prod.snd hsrc2
  have hcontents : Function.update (contents ops'') .src
      ((ops'' .src).val + (ops' .src2).val, (ops'' .src).val) =
      Function.update (Function.update (contents s.decinfo.operand) .src2 (simm, simm)) .src
        (s.cpu.gpr i + simm, s.cpu.gpr i) := by
    have hsame : contents ops'' = contents ops' := hops''
    rw [hval, hval2, hsame, hops', Function.update_comm (show OperandId.src2 ≠ .src by decide),
      Function.update_idem, Function.update_comm (show OperandId.src ≠ .src2 by decide)]
  rw [← hcontents]
  exact hadd

end Decode

/-! ## Memory -/

section Memory

variable {base : Word} {s : Machine}

theorem onBus_ok {α : Type} {x : OnBus α} {a : α} {bus : Bus} (h : x s.bus = .ok a bus) :
    onBus x s = .ok a { s with bus } := by
  simp only [onBus, h]

theorem rtlLm_run (hmap : s.bus.pmemMap = registerPmem base) {addr : Word}
    (hin : InsidePmem base addr 4) : rtlLm addr 4 s = .ok (s.wordAt base addr) s :=
  onBus_ok (paddrRead_guestByte hmap (by decide) hin).1

/-- The bus after a word is stored. -/
def Machine.storeWord (base : Word) (s : Machine) (addr v : Word) : Bus :=
  PaddrWrite.after base s.bus ⟨addr, v, 4⟩

theorem validWrite {addr v : Word} (hin : InsidePmem base addr 4) :
    PaddrWrite.Valid base ⟨addr, v, 4⟩ := ⟨.inr (.inr rfl), hin⟩

theorem rtlSm_run (hmap : s.bus.pmemMap = registerPmem base) {addr : Word} (v : Word)
    (hin : InsidePmem base addr 4) :
    rtlSm addr v 4 s = .ok ⟨⟩ { s with bus := s.storeWord base addr v } :=
  onBus_ok ((validWrite hin).run hmap)

theorem strcatfBytebuf_forM (f : Nat → List Char) (l : List Nat) (s : Machine) :
    ∃ t, (l.forM fun i => strcatfBytebuf (f i)) s = .ok ⟨⟩ { s with trace := t } := by
  induction l generalizing s with
  | nil => exact ⟨s.trace, rfl⟩
  | cons i l ih =>
      rcases ih { s with
        trace := s.trace.ofBuffers (s.trace.bytebuf ++ (f i).take (tempbufSize - 1))
          s.trace.asmbuf } with ⟨t, ht⟩
      refine ⟨t, ?_⟩
      change (strcatfBytebuf (f i) >>= fun _ => l.forM fun i => strcatfBytebuf (f i)) s = _
      exact (bind_ok rfl).trans ht

/-- One word, with nothing but `seq_pc` and the trace changed. -/
theorem instrFetch_run (hmap : s.bus.pmemMap = registerPmem base)
    (hin : InsidePmem base s.decinfo.seqPc 4) :
    ∃ t, instrFetch 4 s = .ok (s.wordAt base s.decinfo.seqPc)
      { s with decinfo := { s.decinfo with seqPc := s.decinfo.seqPc + 4 }, trace := t } := by
  have hread := rtlLm_run hmap hin
  rcases strcatfBytebuf_forM (fun i => byteText (byteOf (s.wordAt base s.decinfo.seqPc) i))
    (List.range 4) { s with trace := { s.trace with fetched := s.trace.fetched + 4 } } with ⟨t, ht⟩
  refine ⟨t, ?_⟩
  rw [instrFetch, bind_ok (get_run s)]
  refine (bind_ok hread).trans ((bind_ok (modify_run _ s)).trans ?_)
  exact (bind_ok ht).trans rfl

end Memory

/-! ## Execution -/

section Execute

variable {base : Word} {s : Machine}

theorem getOperand_run (op : OperandId) (s : Machine) :
    getOperand op s = .ok (s.decinfo.operand op) s := rfl

theorem printAsmTemplate2_run (text : List Char) (s : Machine) :
    ∃ t, printAsmTemplate2 text s = .ok ⟨⟩ { s with trace := t } := ⟨_, rfl⟩

theorem printAsmTemplate3_run (text : List Char) (s : Machine) :
    ∃ t, printAsmTemplate3 text s = .ok ⟨⟩ { s with trace := t } := ⟨_, rfl⟩

theorem execLd_run (hmap : s.bus.pmemMap = registerPmem base) (hwidth : s.decinfo.width = 4)
    {addr : Word} {rd : Fin 32} (haddr : (s.decinfo.operand .src).word = addr)
    (hdest : (s.decinfo.operand .dest).word = regWord rd) (hin : InsidePmem base addr 4) :
    ∃ t, execLd s = .ok ⟨⟩ { s with
      s0 := s.wordAt base addr
      cpu := { s.cpu with gpr := s.cpu.write rd (s.wordAt base addr) }
      trace := t } := by
  have hload : rtlLm (s.decinfo.operand .src).word 4 s = .ok (s.wordAt base addr) s := by
    rw [haddr]
    exact rtlLm_run hmap hin
  have hstore : ∀ t : Machine, rtlSr (s.decinfo.operand .dest).word (s.wordAt base addr) t =
      .ok ⟨⟩ { t with cpu := { t.cpu with gpr := t.cpu.write rd (s.wordAt base addr) } } := by
    intro t
    rw [hdest]
    exact rtlSr_run rd _ t
  let s₁ : Machine := { s with s0 := s.wordAt base addr }
  have hrun : execLd s = printAsmTemplate2 ['l', 'w']
      { s₁ with cpu := { s₁.cpu with gpr := s₁.cpu.write rd (s.wordAt base addr) } } := by
    rw [execLd, bind_ok (get_run s), hwidth]
    refine (bind_ok (getOperand_run .src s)).trans ((bind_ok hload).trans ?_)
    refine (bind_ok (modify_run _ s)).trans ((bind_ok (getOperand_run .dest s₁)).trans ?_)
    exact bind_ok (hstore s₁)
  rw [hrun]
  exact printAsmTemplate2_run _ _

theorem execSt_run (hmap : s.bus.pmemMap = registerPmem base) (hwidth : s.decinfo.width = 4)
    {addr v : Word} (haddr : (s.decinfo.operand .src).word = addr)
    (hval : (s.decinfo.operand .dest).val = v) (hin : InsidePmem base addr 4) :
    ∃ t, execSt s = .ok ⟨⟩ { s with bus := s.storeWord base addr v, trace := t } := by
  have hstore : rtlSm (s.decinfo.operand .src).word (s.decinfo.operand .dest).val 4 s =
      .ok ⟨⟩ { s with bus := s.storeWord base addr v } := by
    rw [haddr, hval]
    exact rtlSm_run hmap v hin
  have hrun : execSt s = printAsmTemplate2 ['s', 'w'] { s with bus := s.storeWord base addr v } := by
    rw [execSt, bind_ok (get_run s), hwidth]
    refine (bind_ok (getOperand_run .src s)).trans ((bind_ok (getOperand_run .dest s)).trans ?_)
    exact bind_ok hstore
  rw [hrun]
  exact printAsmTemplate2_run _ _

/-- The words of the message are the instruction and the one behind it. -/
theorem execInv_run (hmap : s.bus.pmemMap = registerPmem base)
    (hin : InsidePmem base s.cpu.pc 8) :
    ∃ t, execInv s = .ok ⟨⟩ { s with
      decinfo := { s.decinfo with seqPc := s.cpu.pc + 8 }
      nemuState := ⟨.nemuAbort, s.cpu.pc, -1⟩
      trace := t } := by
  have hfirst : InsidePmem base s.cpu.pc 4 := fun k hk => hin k (by omega)
  -- the second word of the message
  have hsecond : InsidePmem base (s.cpu.pc + 4) 4 := by
    intro k hk
    have hbyte := hin (4 + k) (by omega)
    rwa [BitVec.ofNat_add, ← BitVec.add_assoc] at hbyte
  let s₀ : Machine := { s with decinfo := { s.decinfo with seqPc := s.cpu.pc } }
  rcases instrFetch_run (s := s₀) hmap hfirst with ⟨t₁, hrun₁⟩
  let s₁ : Machine := { s with decinfo := { s.decinfo with seqPc := s.cpu.pc + 4 }, trace := t₁ }
  rcases instrFetch_run (s := s₁) hmap hsecond with ⟨t₂, hrun₂⟩
  have hpc : s.cpu.pc + 4 + 4 = s.cpu.pc + 8 := by rw [BitVec.add_assoc]; rfl
  let s₂ : Machine := { s with decinfo := { s.decinfo with seqPc := s.cpu.pc + 8 }, trace := t₂ }
  have hrun : execInv s = (rtlExit .nemuAbort s.cpu.pc (-1) >>= fun _ => printAsm ['i', 'n', 'v',
      'a', 'l', 'i', 'd', ' ', 'o', 'p', 'c', 'o', 'd', 'e']) s₂ := by
    rw [execInv, bind_ok (get_run s)]
    refine (bind_ok (modify_run _ s)).trans ((bind_ok hrun₁).trans ((bind_ok hrun₂).trans ?_))
    rw [hpc]
  rw [hrun]
  exact ⟨_, rfl⟩

theorem execNemuTrap_run (ret : Fin 32) (s : Machine) :
    ∃ t, execNemuTrap ret s = .ok ⟨⟩ { s with
      bus := s.bus.skipRef
      nemuState := ⟨.nemuEnd, s.cpu.pc, s.cpu.gpr ret⟩
      trace := t } := ⟨_, rfl⟩

/-- What `exec_once` adds to `isa_exec` when the instruction was no jump. -/
theorem execOnce_run {isaExec : Exec Unit} {s₁ : Machine}
    (hisa : isaExec { s with decinfo := { s.decinfo with seqPc := s.cpu.pc } } = .ok ⟨⟩ s₁)
    (hjmp : s₁.decinfo.isJmp = false) :
    execOnce isaExec s = .ok s₁.decinfo.seqPc
      { s₁ with cpu := { s₁.cpu with pc := s₁.decinfo.seqPc } } := by
  -- no jump, so that `pc` takes the place of `seq_pc`
  have hupdate : updatePc s₁ =
      .ok ⟨⟩ { s₁ with cpu := { s₁.cpu with pc := s₁.decinfo.seqPc } } := by
    rw [updatePc, modify_run, hjmp]
    rfl
  rw [execOnce, bind_ok (get_run s)]
  refine (bind_ok (modify_run _ s)).trans ((bind_ok hisa).trans ((bind_ok hupdate).trans ?_))
  rfl

/-- What an instruction leaves behind: registers, bus, run state, and where `pc` goes. -/
structure Executed (s : Machine) (gpr : Fin 32 → Word) (bus : Bus) (state : NEMUState) (npc : Word)
    (s' : Machine) : Prop where
  gpr : s'.cpu.gpr = gpr
  bus : s'.bus = bus
  nemuState : s'.nemuState = state
  seqPc : s'.decinfo.seqPc = npc
  isJmp : s'.decinfo.isJmp = s.decinfo.isJmp

theorem execOnce_executed {isaExec : Exec Unit} {gpr : Fin 32 → Word} {bus : Bus}
    {state : NEMUState} {npc : Word} (hjmp : s.decinfo.isJmp = false)
    (hisa : Ensures isaExec { s with decinfo := { s.decinfo with seqPc := s.cpu.pc } }
      fun _ s₁ => Executed s gpr bus state npc s₁) :
    ∃ s', execOnce isaExec s = .ok npc s' ∧ s'.cpu = ⟨gpr, npc⟩ ∧ s'.bus = bus ∧
      s'.nemuState = state := by
  rcases hisa with ⟨_, s₁, hrun, h⟩
  have honce := execOnce_run hrun (h.isJmp.trans hjmp)
  rw [h.seqPc] at honce
  refine ⟨_, honce, ?_, h.bus, h.nemuState⟩
  rw [← h.gpr]

end Execute

end Risc
end Nemu
