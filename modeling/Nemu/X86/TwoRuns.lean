import Mathlib.Data.Set.Insert
import Nemu.Lib.TwoRuns
import Nemu.X86.Special

/-!
# Every helper run twice

Between instructions nothing of `decinfo` and of the temporary registers matters but the two flags:
an instruction writes everything else before it reads it.  Every helper is run twice, from states
that agree on the locations written so far.
-/

namespace Nemu

open StateRules

/-! ## Locations -/

/-- The globals through which the helpers hand values to each other. -/
inductive Loc
  | opcode
  | extOpcode
  | s0
  | s1
  | width (op : OperandId)
  | place (op : OperandId)
  | val (op : OperandId)
  | str (op : OperandId)

/-- Two operands agree on the fields that `K` names. -/
structure SameOperand (K : Set Loc) (op : OperandId) (o o' : Operand) : Prop where
  width : .width op ∈ K → o'.width = o.width
  place : .place op ∈ K → o'.type = o.type ∧ o'.word = o.word
  val : .val op ∈ K → o'.val = o.val
  str : .str op ∈ K → o'.str = o.str

/-- The same guest memory; the first machine has no devices, so that a run of it that returns stays
in `pmem`. -/
structure SameMemory (bus bus' : Bus) : Prop where
  pmem : bus'.pmem = bus.pmem
  map : bus'.pmemMap = bus.pmemMap
  noMaps : bus.io.mmioMaps = []

/-- The same strings in `log_bytebuf` and `log_asmbuf`, which have been too short in both machines
or in neither. -/
structure Trace.Same (t t' : Trace) : Prop where
  bytebuf : t'.bytebuf = t.bytebuf
  asmbuf : t'.asmbuf = t.asmbuf
  fits : t'.fits = t.fits

/-- The machines agree on what counts between instructions, and on the locations in `K`. -/
structure Knows (K : Set Loc) (s t : Machine) : Prop where
  cpu : t.cpu = s.cpu
  bus : SameMemory s.bus t.bus
  nemuState : t.nemuState = s.nemuState
  trace : s.trace.Same t.trace
  seqPc : t.decinfo.seqPc = s.decinfo.seqPc
  isJmp : t.decinfo.isJmp = s.decinfo.isJmp
  size16 : t.decinfo.isOperandSize16 = s.decinfo.isOperandSize16
  opcode : .opcode ∈ K → t.decinfo.opcode = s.decinfo.opcode
  extOpcode : .extOpcode ∈ K → t.decinfo.extOpcode = s.decinfo.extOpcode
  s0 : .s0 ∈ K → t.s0 = s.s0
  s1 : .s1 ∈ K → t.s1 = s.s1
  operand : ∀ op, SameOperand K op (s.decinfo.operand op) (t.decinfo.operand op)

theorem SameOperand.mono {K K' : Set Loc} {op : OperandId} {o o' : Operand}
    (h : SameOperand K op o o') (hsub : ∀ l ∈ K', l ∈ K) : SameOperand K' op o o' :=
  ⟨h.width ∘ hsub _, h.place ∘ hsub _, h.val ∘ hsub _, h.str ∘ hsub _⟩

theorem Knows.mono {K K' : Set Loc} {s t : Machine} (h : Knows K s t) (hsub : ∀ l ∈ K', l ∈ K) :
    Knows K' s t :=
  { h with
    opcode := h.opcode ∘ hsub _, extOpcode := h.extOpcode ∘ hsub _, s0 := h.s0 ∘ hsub _,
    s1 := h.s1 ∘ hsub _, operand := fun op => (h.operand op).mono hsub }

section Helpers

variable {α β : Type} {K : Set Loc}

theorem sim_forget {P : Machine → Machine → Prop} {x y : Exec α} {K' : Set Loc}
    (h : Sim P x y (Alike (Knows K))) (hsub : ∀ l ∈ K', l ∈ K) :
    Sim P x y (Alike (Knows K')) :=
  h.alike_mono fun _ _ hk => hk.mono hsub

/-! ## Memory -/

theorem onBus_sim {x : OnBus α} (h : ∀ bus bus', SameMemory bus bus' → ∀ a b, x bus = .ok a b →
    ∃ b', x bus' = .ok a b' ∧ SameMemory b b') :
    Sim (Knows K) (onBus x) (onBus x) (Alike (Knows K)) := by
  intro s t a s' hst hrun
  unfold onBus at hrun ⊢
  cases hx : x s.bus with
  | error e bus =>
      simp only [hx] at hrun
      cases hrun
  | ok v bus =>
      simp only [hx] at hrun
      cases hrun
      rcases h s.bus t.bus hst.bus a bus hx with ⟨bus', hx', hbus⟩
      exact ⟨a, { t with bus := bus' }, by simp only [hx'], rfl, { hst with bus := hbus }⟩

/-- Without a map there is no device. -/
theorem checkBound_none {map : IOMap} {addr : Word} {bus bus' : Bus} :
    checkBound none addr bus ≠ .ok map bus' := by
  intro h
  cases h

theorem fetchMmioMap_none {bus : Bus} (h : bus.io.mmioMaps = []) (addr : Word) :
    fetchMmioMap addr bus = .ok none bus := by
  rw [fetchMmioMap, bind_ok (get_run bus), h]
  rfl

theorem paddrRead_same {bus bus' b : Bus} {addr a : Word} {len : Nat} (h : SameMemory bus bus')
    (hrun : paddrRead addr len bus = .ok a b) :
    ∃ b', paddrRead addr len bus' = .ok a b' ∧ SameMemory b b' := by
  by_cases hin : mapInside bus.pmemMap addr = true
  · rw [paddrRead_pmem len hin] at hrun
    cases hrun
    have hload : bus'.load (paddrReadAccess bus'.pmemMap addr) =
        bus.load (paddrReadAccess bus.pmemMap addr) := by
      rw [h.map]
      exact congrArg (fun f => LittleEndian.load f _ 4) h.pmem
    refine ⟨bus', ?_, h⟩
    rw [paddrRead_pmem len (h.map ▸ hin), hload]
  · -- outside `pmem` the first machine finds no map, and its run does not return
    rw [paddrRead, bind_ok (get_run bus), if_neg hin, bind_ok (fetchMmioMap_none h.noMaps addr)]
      at hrun
    rcases bind_eq_ok.1 hrun with ⟨_, b₁, _, hbound⟩
    rcases bind_eq_ok.1 hbound with ⟨map, b₂, hnone, _⟩
    exact absurd hnone checkBound_none

theorem paddrWrite_same {bus bus' b : Bus} {addr data : Word} {len : Nat} {u : Unit}
    (h : SameMemory bus bus') (hrun : paddrWrite addr data len bus = .ok u b) :
    ∃ b', paddrWrite addr data len bus' = .ok u b' ∧ SameMemory b b' := by
  by_cases hin : mapInside bus.pmemMap addr = true
  · rw [paddrWrite_pmem data len hin] at hrun
    cases hrun
    refine ⟨bus'.store (paddrWriteAccess bus'.pmemMap addr len) data, ?_, ?_, h.map, h.noMaps⟩
    · rw [paddrWrite_pmem data len (h.map ▸ hin)]
    · rw [h.map]
      exact congrArg (fun f => LittleEndian.store f _ len data) h.pmem
  · -- the same for a write
    rw [paddrWrite, bind_ok (get_run bus), if_neg hin, bind_ok (fetchMmioMap_none h.noMaps addr)]
      at hrun
    rcases bind_eq_ok.1 hrun with ⟨_, b₁, _, hbound⟩
    rcases bind_eq_ok.1 hbound with ⟨map, b₂, hnone, _⟩
    exact absurd hnone checkBound_none

theorem rtlLm_sim (addr : Word) (len : Nat) :
    Sim (Knows K) (rtlLm addr len) (rtlLm addr len) (Alike (Knows K)) :=
  onBus_sim fun _ _ h _ _ hrun => paddrRead_same h hrun

theorem rtlSm_sim (addr src : Word) (len : Nat) :
    Sim (Knows K) (rtlSm addr src len) (rtlSm addr src len) (Alike (Knows K)) :=
  onBus_sim fun _ _ h _ _ hrun => paddrWrite_same h hrun

theorem skipRef_sim :
    Sim (Knows K) (onBus difftestSkipRef) (onBus difftestSkipRef) (Alike (Knows K)) := by
  refine onBus_sim fun bus bus' h _ _ hrun => ?_
  cases hrun
  exact ⟨bus'.skipRef, rfl, h.pmem, h.map, h.noMaps⟩

/-! ## Locations and texts -/

theorem modifyDecinfo_sim {K' : Set Loc} {f g : DecodeInfo → DecodeInfo}
    (h : ∀ s t, Knows K s t →
      Knows K' { s with decinfo := f s.decinfo } { t with decinfo := g t.decinfo }) :
    Sim (Knows K) (modifyDecinfo f) (modifyDecinfo g) (Alike (Knows K')) :=
  Sim.modify h

theorem Trace.Same.ofBuffers {t t' : Trace} (h : t.Same t') (bytebuf asmbuf : List Char) :
    (t.ofBuffers bytebuf asmbuf).Same (t'.ofBuffers bytebuf asmbuf) := by
  refine ⟨rfl, rfl, ?_⟩
  rw [Trace.ofBuffers, Trace.ofBuffers, h.fits]

theorem printAsm_sim (text : List Char) :
    Sim (Knows K) (printAsm text) (printAsm text) (Alike (Knows K)) := by
  refine Sim.modify fun s t h => { h with trace := ?_ }
  rw [h.trace.bytebuf, h.trace.asmbuf]
  exact h.trace.ofBuffers _ _

theorem strcatfBytebuf_sim (text : List Char) :
    Sim (Knows K) (strcatfBytebuf text) (strcatfBytebuf text) (Alike (Knows K)) := by
  refine Sim.modify fun s t h => { h with trace := ?_ }
  rw [h.trace.bytebuf, h.trace.asmbuf]
  exact h.trace.ofBuffers _ _

theorem asmPrint_sim : Sim (Knows K) asmPrint asmPrint (Alike (Knows K)) :=
  Sim.modify fun _ _ h => { h with trace := h.trace.ofBuffers [] [] }

theorem checkTrace_sim : Sim (Knows K) checkTrace checkTrace (Alike (Knows K)) := by
  intro s t u s' hst hrun
  rcases checkTrace_eq_ok.1 hrun with ⟨rfl, hfits⟩
  exact ⟨u, t, checkTrace_eq_ok.2 ⟨rfl, hst.trace.fits.trans hfits⟩, rfl, hst⟩

/-! ## Operands -/

theorem getOperand_sim {op : OperandId} {f g : Operand → Exec α} {Q : α → α → Machine → Machine → Prop}
    (h : ∀ o o', SameOperand K op o o' → Sim (Knows K) (f o) (g o') Q) :
    Sim (Knows K) (getOperand op >>= f) (getOperand op >>= g) Q :=
  fun s t a s' hst hrun => h _ _ (hst.operand op) s t a s' hst hrun

theorem modifyOperand_sim {op : OperandId} {f g : Operand → Operand} {K' : Set Loc}
    (hK : ∀ l ∈ K', l ∈ K ∨ l = .width op ∨ l = .place op ∨ l = .val op ∨ l = .str op)
    (h : ∀ o o', SameOperand K op o o' → SameOperand K' op (f o) (g o')) :
    Sim (Knows K) (modifyOperand op f) (modifyOperand op g) (Alike (Knows K')) := by
  refine modifyDecinfo_sim fun s t hst => { hst with
    opcode := fun hl => hst.opcode (by simpa using hK _ hl)
    extOpcode := fun hl => hst.extOpcode (by simpa using hK _ hl)
    s0 := fun hl => hst.s0 (by simpa using hK _ hl)
    s1 := fun hl => hst.s1 (by simpa using hK _ hl)
    operand := fun op' => ?_ }
  by_cases heq : op' = op
  · subst heq
    simp only [Function.update_self]
    exact h _ _ (hst.operand op')
  · simp only [Function.update_of_ne heq]
    have hold := hst.operand op'
    exact ⟨fun hl => hold.width (by simpa [heq] using hK _ hl),
      fun hl => hold.place (by simpa [heq] using hK _ hl),
      fun hl => hold.val (by simpa [heq] using hK _ hl),
      fun hl => hold.str (by simpa [heq] using hK _ hl)⟩

theorem setVal_sim (op : OperandId) (v : Word) :
    Sim (Knows K) (setVal op v) (setVal op v) (Alike (Knows (insert (.val op) K))) := by
  refine modifyOperand_sim (fun l hl => ?_)
    fun o o' h => ⟨fun hw => ?_, fun hp => ?_, fun _ => rfl, fun ht => ?_⟩
  · rcases hl with rfl | hl
    · simp
    · exact .inl hl
  · exact h.width (by simpa using hw)
  · exact h.place (by simpa using hp)
  · exact h.str (by simpa using ht)

theorem setPlace_sim (op : OperandId) (type : OpType) (word : Word) :
    Sim (Knows K) (setPlace op type word) (setPlace op type word)
      (Alike (Knows (insert (.place op) K))) := by
  refine modifyOperand_sim (fun l hl => ?_)
    fun o o' h => ⟨fun hw => ?_, fun _ => ⟨rfl, rfl⟩, fun hv => ?_, fun ht => ?_⟩
  · rcases hl with rfl | hl
    · simp
    · exact .inl hl
  · exact h.width (by simpa using hw)
  · exact h.val (by simpa using hv)
  · exact h.str (by simpa using ht)

theorem setOperandWidth_sim (op : OperandId) (width : Nat) :
    Sim (Knows K) (setOperandWidth op width) (setOperandWidth op width) (Alike (Knows K)) :=
  modifyOperand_sim (fun _ hl => .inl hl) fun _ _ h => ⟨fun _ => rfl, h.place, h.val, h.str⟩

theorem printDop_sim (op : OperandId) (text : List Char) :
    Sim (Knows K) (printDop op text) (printDop op text)
      (Alike (Knows (insert (.str op) K))) := by
  refine modifyOperand_sim (fun l hl => ?_)
    fun o o' h => ⟨fun hw => ?_, fun hp => ?_, fun hv => ?_, fun _ => rfl⟩
  · rcases hl with rfl | hl
    · simp
    · exact .inl hl
  · exact h.width (by simpa using hw)
  · exact h.place (by simpa using hp)
  · exact h.val (by simpa using hv)

/-! ## Fetching and registers -/

theorem instrFetch_sim (len : Nat) :
    Sim (Knows K) (instrFetch len) (instrFetch len) (Alike (Knows K)) := by
  refine Sim.get fun s t hst => ?_
  rw [hst.seqPc]
  refine Sim.andThen (onBus_sim fun _ _ h _ _ hrun => paddrRead_same h hrun) fun instr => ?_
  refine Sim.andThen (R := Knows K) (Sim.modify fun _ _ h =>
    { h with trace := ⟨h.trace.bytebuf, h.trace.asmbuf, h.trace.fits⟩ }) fun _ => ?_
  have htexts : ∀ l : List Nat, Sim (Knows K)
      (l.forM fun i => strcatfBytebuf (byteText (LittleEndian.byteOf instr i)))
      (l.forM fun i => strcatfBytebuf (byteText (LittleEndian.byteOf instr i)))
      (Alike (Knows K)) := by
    intro l
    induction l with
    | nil => exact Sim.pure _
    | cons i l ih => exact Sim.andThen (strcatfBytebuf_sim _) fun _ => ih
  refine Sim.andThen (htexts _) fun _ => ?_
  refine Sim.andThen (R := Knows K) (modifyDecinfo_sim fun s t h => ?_) fun _ => Sim.pure _
  exact { h with seqPc := congrArg (· + BitVec.ofNat 32 len) h.seqPc }

theorem checkRegIndex_sim (index : Word) :
    Sim (Knows K) (checkRegIndex index) (checkRegIndex index) (Alike (Knows K)) := by
  intro s t a s' hst hrun
  unfold checkRegIndex at hrun ⊢
  by_cases h : index.toNat < 8
  · rw [dif_pos h] at hrun ⊢
    cases hrun
    exact ⟨_, t, rfl, rfl, hst⟩
  · rw [dif_neg h] at hrun
    cases hrun

theorem cAssert_sim (b : Bool) :
    Sim (Knows K) (cAssert b) (cAssert b) (Alike (Knows K)) := by
  intro s t a s' hst hrun
  rcases cAssert_eq_ok.1 hrun with ⟨rfl, rfl⟩
  exact ⟨a, t, cAssert_true_run t, rfl, hst⟩

theorem rtlLr_sim (r : Word) (width : Nat) :
    Sim (Knows K) (rtlLr r width) (rtlLr r width) (Alike (Knows K)) := by
  refine Sim.get fun s t hst => ?_
  rw [hst.cpu]
  split
  · exact (checkRegIndex_sim r).andThen fun i => Sim.pure _
  · exact (checkRegIndex_sim r).andThen fun i => Sim.pure _
  · exact (checkRegIndex_sim r).andThen fun i => Sim.pure _
  · exact Sim.throw _

theorem modifyCpu_sim (f : CPUState → CPUState) :
    Sim (Knows K) (modifyCpu f) (modifyCpu f) (Alike (Knows K)) :=
  Sim.modify fun _ _ h => { h with cpu := congrArg f h.cpu }

theorem rtlSr_sim (r src : Word) (width : Nat) :
    Sim (Knows K) (rtlSr r src width) (rtlSr r src width) (Alike (Knows K)) := by
  unfold rtlSr
  split
  · exact (checkRegIndex_sim r).andThen fun i => modifyCpu_sim _
  · exact (checkRegIndex_sim r).andThen fun i => modifyCpu_sim _
  · exact (checkRegIndex_sim r).andThen fun i => modifyCpu_sim _
  · exact Sim.throw _

/-! ## Decoding operands -/

/-- The locations known after an operand has been decoded. -/
def decoded (op : OperandId) (loadVal : Bool) (K : Set Loc) : Set Loc :=
  insert (.str op)
    (if loadVal then insert (.val op) (insert (.place op) K) else insert (.place op) K)

theorem mem_decoded {op : OperandId} {loadVal : Bool} {l : Loc} :
    l ∈ decoded op loadVal K ↔
      l ∈ K ∨ l = .place op ∨ l = .str op ∨ (loadVal = true ∧ l = .val op) := by
  cases loadVal with
  | true =>
      simp only [decoded, if_true, Set.mem_insert_iff, true_and]
      tauto
  | false =>
      simp only [decoded, Bool.false_eq_true, if_false, Set.mem_insert_iff, false_and, or_false]
      tauto

theorem regNameOf_sim (index : Word) (width : Nat) :
    Sim (Knows K) (regNameOf index width) (regNameOf index width) (Alike (Knows K)) := by
  unfold regNameOf
  cases regName index width with
  | none => exact Sim.throw _
  | some name => exact Sim.pure _

theorem printReg_sim {op : OperandId} (hw : .width op ∈ K) (index : Word) :
    Sim (Knows K) (printReg op index) (printReg op index)
      (Alike (Knows (insert (.str op) K))) := by
  refine getOperand_sim fun o o' h => ?_
  rw [h.width hw]
  exact (regNameOf_sim _ _).andThen fun name => printDop_sim op _

theorem loadReg_sim {op : OperandId} (hw : .width op ∈ K) (r : Word) :
    Sim (Knows K) (loadReg op r) (loadReg op r) (Alike (Knows (insert (.val op) K))) := by
  refine getOperand_sim fun o o' h => ?_
  rw [h.width hw]
  exact (rtlLr_sim _ _).andThen fun v => setVal_sim op v

theorem decodeReg_sim {op : OperandId} (hw : .width op ∈ K) (r : Word) (loadVal : Bool) :
    Sim (Knows K) (decodeReg op r loadVal) (decodeReg op r loadVal)
      (Alike (Knows (decoded op loadVal K))) := by
  refine (setPlace_sim op .reg r).andThen fun _ => ?_
  cases loadVal with
  | true =>
      refine (loadReg_sim (Set.mem_insert_of_mem _ hw) r).andThen fun _ => ?_
      exact printReg_sim (Set.mem_insert_of_mem _ (Set.mem_insert_of_mem _ hw)) r
  | false => exact printReg_sim (Set.mem_insert_of_mem _ hw) r

theorem loadMem_sim {op : OperandId} (hw : .width op ∈ K) (hp : .place op ∈ K) :
    Sim (Knows K) (loadMem op) (loadMem op) (Alike (Knows (insert (.val op) K))) := by
  refine getOperand_sim fun o o' h => ?_
  rw [h.width hw, (h.place hp).2]
  exact (rtlLm_sim _ _).andThen fun v => setVal_sim op v

theorem decodeOpI_sim {op : OperandId} (hw : .width op ∈ K) :
    Sim (Knows K) (decodeOpI op) (decodeOpI op) (Alike (Knows (decoded op true K))) := by
  refine getOperand_sim fun o o' h => ?_
  rw [h.width hw]
  refine (instrFetch_sim _).andThen fun imm => ?_
  refine (setPlace_sim op .imm imm).andThen fun _ => (setVal_sim op imm).andThen fun _ => ?_
  exact printDop_sim op _

/-- The helper never returns. -/
theorem decodeOpSI_sim (op : OperandId) (K' : Set Loc) :
    Sim (Knows K) (decodeOpSI op) (decodeOpSI op) (Alike (Knows K')) := by
  intro s t a s' hst hrun
  rcases bind_eq_ok.1 hrun with ⟨o, s₁, _, hassert⟩
  rcases bind_eq_ok.1 hassert with ⟨u, s₂, _, hthrow⟩
  cases hthrow

theorem decodeOpR_sim {op : OperandId} (hopcode : .opcode ∈ K) (hw : .width op ∈ K)
    (loadVal : Bool) :
    Sim (Knows K) (decodeOpR op loadVal) (decodeOpR op loadVal)
      (Alike (Knows (decoded op loadVal K))) := by
  refine Sim.get fun s t hst => ?_
  rw [hst.opcode hopcode]
  exact decodeReg_sim hw _ loadVal

theorem decodeOpO_sim {op : OperandId} (hw : .width op ∈ K) (loadVal : Bool) :
    Sim (Knows K) (decodeOpO op loadVal) (decodeOpO op loadVal)
      (Alike (Knows (decoded op loadVal K))) := by
  refine (instrFetch_sim 4).andThen fun addr => (setPlace_sim op .mem addr).andThen fun _ => ?_
  cases loadVal with
  | true =>
      have hload := loadMem_sim (Set.mem_insert_of_mem (.place op) hw) (Set.mem_insert _ K)
      exact hload.andThen fun _ => printDop_sim op _
  | false => exact printDop_sim op _

/-! ## load_addr and read_ModR_M -/

theorem Knows.scratch {K' : Set Loc} {s t : Machine} (h : Knows K s t)
    (hsub : ∀ l ∈ K', l ∈ K ∨ l = .s0 ∨ l = .s1) {a b ir a' b' ir' : Word}
    (hs0 : .s0 ∈ K' → a' = a) (hs1 : .s1 ∈ K' → b' = b) :
    Knows K' { s with s0 := a, s1 := b, ir } { t with s0 := a', s1 := b', ir := ir' } :=
  { h with
    opcode := fun hl => h.opcode (by simpa using hsub _ hl)
    extOpcode := fun hl => h.extOpcode (by simpa using hsub _ hl)
    s0 := hs0
    s1 := hs1
    operand := fun op => ⟨fun hl => (h.operand op).width (by simpa using hsub _ hl),
      fun hl => (h.operand op).place (by simpa using hsub _ hl),
      fun hl => (h.operand op).val (by simpa using hsub _ hl),
      fun hl => (h.operand op).str (by simpa using hsub _ hl)⟩ }

theorem setS0_sim (v : Word) :
    Sim (Knows K) (setS0 v) (setS0 v) (Alike (Knows (insert .s0 K))) := by
  refine Sim.modify fun s t hst => hst.scratch (fun l hl => ?_) (fun _ => rfl) fun hs1 => ?_
  · rcases hl with rfl | hl
    · exact .inr (.inl rfl)
    · exact .inl hl
  · exact hst.s1 (by simpa using hs1)

theorem setS1_sim (v : Word) :
    Sim (Knows K) (setS1 v) (setS1 v) (Alike (Knows (insert .s1 K))) := by
  refine Sim.modify fun s t hst => hst.scratch (fun l hl => ?_) (fun hs0 => ?_) fun _ => rfl
  · rcases hl with rfl | hl
    · exact .inr (.inr rfl)
    · exact .inl hl
  · exact hst.s0 (by simpa using hs0)

theorem fetchForm_sim (m : ModRM) :
    Sim (Knows K) (fetchForm m) (fetchForm m) (Alike (Knows K)) := by
  unfold fetchForm
  exact Sim.ite ((instrFetch_sim 1).andThen fun _ => Sim.pure _) (Sim.pure _)

theorem fetchDisp_sim (hs0 : .s0 ∈ K) (dispSize : Nat) :
    Sim (Knows K) (fetchDisp dispSize) (fetchDisp dispSize) (Alike (Knows K)) := by
  unfold fetchDisp
  refine Sim.ite ((instrFetch_sim dispSize).andThen fun disp => ?_) (Sim.pure _)
  refine Sim.andThen (R := Knows K) (Sim.modify fun s t hst => ?_) fun _ => Sim.pure _
  exact hst.scratch (fun _ hl => .inl hl) (fun _ => congrArg (· + _) (hst.s0 hs0)) hst.s1

theorem addBase_sim (hs0 : .s0 ∈ K) (baseReg : Option (Fin 8)) :
    Sim (Knows K) (addBase baseReg) (addBase baseReg) (Alike (Knows K)) := by
  cases baseReg with
  | none => exact Sim.pure _
  | some r =>
      refine Sim.modify fun s t hst => hst.scratch (fun _ hl => .inl hl) (fun _ => ?_) hst.s1
      rw [hst.s0 hs0, hst.cpu]

theorem addIndex_sim (hs0 : .s0 ∈ K) (indexReg : Option (Fin 8)) (scale : Nat) :
    Sim (Knows K) (addIndex indexReg scale) (addIndex indexReg scale) (Alike (Knows K)) := by
  cases indexReg with
  | none => exact Sim.pure _
  | some r =>
      refine Sim.get fun s t hst => ?_
      rw [hst.cpu]
      refine (setS1_sim _).andThen fun _ => Sim.modify fun s t hst => ?_
      -- both temporary registers have been written by this instruction
      have hsum : t.s0 + t.s1 = s.s0 + s.s1 := by
        rw [hst.s0 (Set.mem_insert_of_mem _ hs0), hst.s1 (Set.mem_insert _ K)]
      have hall := hst.mono fun l hl => Set.mem_insert_of_mem _ hl
      exact hall.scratch (fun _ hl => .inl hl) (fun _ => hsum) hall.s1

theorem loadAddr_sim (m : ModRM) (rm : OperandId) :
    Sim (Knows K) (loadAddr m rm) (loadAddr m rm)
      (Alike (Knows (insert (.str rm) (insert (.place rm) K)))) := by
  have hs0 : .s0 ∈ insert Loc.s0 K := Set.mem_insert _ K
  refine (cAssert_sim _).andThen fun _ => (setS0_sim 0).andThen fun _ => ?_
  refine (fetchForm_sim m).andThen fun form => (fetchDisp_sim hs0 _).andThen fun disp => ?_
  refine (addBase_sim hs0 _).andThen fun _ => (addIndex_sim hs0 _ _).andThen fun _ => ?_
  refine Sim.get fun s t hst => modifyOperand_sim (fun l hl => ?_)
    fun o o' h => ⟨fun hw => ?_, fun _ => ⟨rfl, hst.s0 hs0⟩, fun hv => ?_, fun _ => rfl⟩
  · rcases hl with rfl | rfl | hl
    · simp
    · simp
    · exact .inl (Set.mem_insert_of_mem _ hl)
  · exact h.width (Set.mem_insert_of_mem _ (by simpa using hw))
  · exact h.val (Set.mem_insert_of_mem _ (by simpa using hv))

theorem extOpcode_sim (m : ModRM) :
    Sim (Knows K) (modifyDecinfo fun d => { d with extOpcode := m.reg })
      (modifyDecinfo fun d => { d with extOpcode := m.reg })
      (Alike (Knows (insert .extOpcode K))) := by
  refine modifyDecinfo_sim fun s t hst => { hst with
    opcode := fun hl => hst.opcode (by simpa using hl)
    extOpcode := fun _ => rfl
    s0 := fun hl => hst.s0 (by simpa using hl)
    s1 := fun hl => hst.s1 (by simpa using hl)
    operand := fun op => ?_ }
  have hop := hst.operand op
  exact ⟨fun hl => hop.width (by simpa using hl), fun hl => hop.place (by simpa using hl),
    fun hl => hop.val (by simpa using hl), fun hl => hop.str (by simpa using hl)⟩

/-- The locations known after `read_ModR_M`. -/
def modRMDecoded (rm : OperandId) (loadRmVal : Bool) (reg : Option OperandId) (loadRegVal : Bool)
    (K : Set Loc) : Set Loc :=
  decoded rm loadRmVal (reg.elim (insert .extOpcode K)
    fun reg => decoded reg loadRegVal (insert .extOpcode K))

theorem readModRM_sim {rm : OperandId} {reg : Option OperandId} (hw : .width rm ∈ K)
    (hreg : ∀ r, reg = some r → .width r ∈ K) (loadRmVal loadRegVal : Bool) :
    Sim (Knows K) (readModRM rm loadRmVal reg loadRegVal) (readModRM rm loadRmVal reg loadRegVal)
      (Alike (Knows (modRMDecoded rm loadRmVal reg loadRegVal K))) := by
  refine (instrFetch_sim 1).andThen fun b => (extOpcode_sim _).andThen fun _ => ?_
  -- the register operand first, so that the other one may be read after it
  have hread : Sim (Knows (insert .extOpcode K)) (readReg (b.setWidth 8) reg loadRegVal)
      (readReg (b.setWidth 8) reg loadRegVal)
      (Alike (Knows (reg.elim (insert .extOpcode K)
        fun reg => decoded reg loadRegVal (insert .extOpcode K)))) := by
    cases reg with
    | none => exact Sim.pure _
    | some r => exact decodeReg_sim (Set.mem_insert_of_mem _ (hreg r rfl)) _ loadRegVal
  have hw' : .width rm ∈ reg.elim (insert .extOpcode K)
      fun reg => decoded reg loadRegVal (insert .extOpcode K) := by
    cases reg with
    | none => exact Set.mem_insert_of_mem _ hw
    | some r => exact mem_decoded.2 (.inl (Set.mem_insert_of_mem _ hw))
  refine hread.andThen fun _ => Sim.ite (decodeReg_sim hw' _ loadRmVal) ?_
  refine (loadAddr_sim _ rm).andThen fun _ => ?_
  cases loadRmVal with
  | true =>
      have hw'' := Set.mem_insert_of_mem (.str rm) (Set.mem_insert_of_mem (.place rm) hw')
      refine sim_forget (loadMem_sim hw'' (Set.mem_insert_of_mem _ (Set.mem_insert _ _)))
        fun l hl => ?_
      simp only [modRMDecoded, mem_decoded, Set.mem_insert_iff, true_and] at hl ⊢
      tauto
  | false => exact Sim.pure _

end Helpers

/-! ## Decode helpers -/

/-- What `fetchEntry` leaves known. -/
def decodeReady : Set Loc := {l | l = .opcode ∨ ∃ op, l = .width op}

/-- What `exec_mov` reads. -/
def movReady : Set Loc :=
  {l | (∃ op, l = .width op) ∨ l = .place .dest ∨ l = .val .src ∨ l = .str .src ∨ l = .str .dest}

theorem width_mem_decodeReady (op : OperandId) : Loc.width op ∈ decodeReady := .inr ⟨op, rfl⟩

/-- The locations known after a decode helper.  `decode_SI2E` does not return. -/
def DHelper.known : DHelper → Set Loc
  | .movG2E => modRMDecoded .dest false (some .src) true decodeReady
  | .movE2G => modRMDecoded .src true (some .dest) false decodeReady
  | .I2E => decoded .src true (modRMDecoded .dest true none false decodeReady)
  | .movI2E => decoded .src true (modRMDecoded .dest false none false decodeReady)
  | .movI2r => decoded .src true (decoded .dest false decodeReady)
  | .E => modRMDecoded .dest true none false decodeReady
  | .gp7E => modRMDecoded .dest false none false decodeReady
  | .SI2E => decodeReady
  | .gp21E => decoded .src true (modRMDecoded .dest true none false decodeReady)
  | .gp2cl2E => decoded .src true (modRMDecoded .dest true none false decodeReady)
  | .gp2Ib2E => decoded .src true (modRMDecoded .dest true none false decodeReady)
  | .O2a => decoded .dest false (decoded .src true decodeReady)
  | .a2O => decoded .dest false (decoded .src true decodeReady)

theorem mem_modRMDecoded {K : Set Loc} {l : Loc} (h : l ∈ K) (rm : OperandId) (loadRmVal : Bool)
    (reg : Option OperandId) (loadRegVal : Bool) :
    l ∈ modRMDecoded rm loadRmVal reg loadRegVal K := by
  refine mem_decoded.2 (.inl ?_)
  cases reg with
  | none => exact Set.mem_insert_of_mem _ h
  | some r => exact mem_decoded.2 (.inl (Set.mem_insert_of_mem _ h))

theorem decodeReady_known (d : DHelper) : ∀ l ∈ decodeReady, l ∈ d.known := by
  intro l hl
  have hmod := fun loadRmVal reg loadRegVal =>
    mem_modRMDecoded hl .dest loadRmVal reg loadRegVal
  cases d with
  | movG2E => exact hmod _ _ _
  | movE2G => exact mem_modRMDecoded hl _ _ _ _
  | I2E => exact mem_decoded.2 (.inl (hmod _ _ _))
  | movI2E => exact mem_decoded.2 (.inl (hmod _ _ _))
  | movI2r => exact mem_decoded.2 (.inl (mem_decoded.2 (.inl hl)))
  | E => exact hmod _ _ _
  | gp7E => exact hmod _ _ _
  | SI2E => exact hl
  | gp21E => exact mem_decoded.2 (.inl (hmod _ _ _))
  | gp2cl2E => exact mem_decoded.2 (.inl (hmod _ _ _))
  | gp2Ib2E => exact mem_decoded.2 (.inl (hmod _ _ _))
  | O2a => exact mem_decoded.2 (.inl (mem_decoded.2 (.inl hl)))
  | a2O => exact mem_decoded.2 (.inl (mem_decoded.2 (.inl hl)))

theorem decodeHelper_sim (d : DHelper) :
    Sim (Knows decodeReady) d.run d.run (Alike (Knows d.known)) := by
  have hw := width_mem_decodeReady
  have hmod : ∀ loadRmVal, Sim (Knows decodeReady) (readModRM .dest loadRmVal none false)
      (readModRM .dest loadRmVal none false)
      (Alike (Knows (modRMDecoded .dest loadRmVal none false decodeReady))) :=
    fun loadRmVal => readModRM_sim (hw .dest) (fun r h => by cases h) loadRmVal false
  -- the second operand is decoded with the width that `set_width` has given it
  have hsrc : ∀ loadRmVal, Loc.width .src ∈ modRMDecoded .dest loadRmVal none false decodeReady :=
    fun loadRmVal => mem_modRMDecoded (hw .src) _ _ _ _
  cases d with
  | movG2E => exact readModRM_sim (hw .dest) (fun r _ => hw r) false true
  | movE2G => exact readModRM_sim (hw .src) (fun r _ => hw r) true false
  | I2E => exact (hmod true).andThen fun _ => decodeOpI_sim (hsrc true)
  | movI2E => exact (hmod false).andThen fun _ => decodeOpI_sim (hsrc false)
  | movI2r =>
      refine (decodeOpR_sim (.inl rfl) (hw .dest) false).andThen fun _ => ?_
      exact decodeOpI_sim (mem_decoded.2 (.inl (hw .src)))
  | E => exact hmod true
  | gp7E => exact hmod false
  | SI2E =>
      refine getOperand_sim fun o o' h => ?_
      rw [h.width (hw .dest)]
      refine (cAssert_sim _).andThen fun _ => (hmod true).andThen fun _ => ?_
      exact (setOperandWidth_sim .src 1).andThen fun _ => decodeOpSI_sim .src _
  | gp21E =>
      refine (hmod true).andThen fun _ => (setPlace_sim .src .imm 1).andThen fun _ => ?_
      exact (setVal_sim .src 1).andThen fun _ => printDop_sim .src _
  | gp2cl2E =>
      refine (hmod true).andThen fun _ => (setPlace_sim .src .reg _).andThen fun _ => ?_
      refine (rtlLr_sim _ 1).andThen fun v => (setVal_sim .src v).andThen fun _ => ?_
      exact printDop_sim .src _
  | gp2Ib2E =>
      refine (hmod true).andThen fun _ => (setOperandWidth_sim .src 1).andThen fun _ => ?_
      exact decodeOpI_sim (hsrc true)
  | O2a =>
      refine (decodeOpO_sim (hw .src) true).andThen fun _ => ?_
      exact decodeReg_sim (mem_decoded.2 (.inl (hw .dest))) _ false
  | a2O =>
      refine (decodeReg_sim (hw .src) _ true).andThen fun _ => ?_
      exact decodeOpO_sim (mem_decoded.2 (.inl (hw .dest))) false

/-! ## The opcode table -/

/-- The decode helpers of the entries for `exec_mov`. -/
def DHelper.IsMov (d : DHelper) : Prop :=
  d = .movG2E ∨ d = .movE2G ∨ d = .movI2E ∨ d = .movI2r ∨ d = .O2a ∨ d = .a2O

theorem movReady_known {d : DHelper} (h : d.IsMov) : ∀ l ∈ movReady, l ∈ d.known := by
  rintro l (⟨op, rfl⟩ | hl)
  · exact decodeReady_known d _ (width_mem_decodeReady op)
  · rcases h with rfl | rfl | rfl | rfl | rfl | rfl <;> rcases hl with rfl | rfl | rfl | rfl <;>
      simp [DHelper.known, modRMDecoded, mem_decoded]

/-- The entries for `exec_mov` decode its operands first. -/
def OpcodeEntry.Prepared (e : OpcodeEntry) : Prop :=
  e.execute = .mov → ∃ d, e.decode = some d ∧ d.IsMov

theorem empty_prepared : empty.Prepared := fun h => by cases h

theorem opcodeTable_prepared (opcode : Nat) : (opcodeTable opcode).Prepared := by
  unfold opcodeTable
  split <;> intro h <;> first
    | (cases h; done)
    | exact ⟨_, rfl, by simp [DHelper.IsMov]⟩

/-! ## Execution -/

section Execute

variable {K : Set Loc}

theorem setWidth_sim (width : Nat) (hopcode : .opcode ∈ K) :
    Sim (Knows K) (setWidth width) (setWidth width) (Alike (Knows decodeReady)) := by
  refine modifyDecinfo_sim fun s t hst => { hst with
    opcode := fun _ => hst.opcode hopcode
    extOpcode := fun hl => by simp [decodeReady] at hl
    s0 := fun hl => by simp [decodeReady] at hl
    s1 := fun hl => by simp [decodeReady] at hl
    operand := fun op => ⟨fun _ => ?_, fun hl => by simp [decodeReady] at hl,
      fun hl => by simp [decodeReady] at hl, fun hl => by simp [decodeReady] at hl⟩ }
  dsimp only
  rw [hst.size16]

/-- `fetchEntry` returns an entry of the table. -/
theorem fetchEntry_sim {α : Type} {escape : Nat} {f : OpcodeEntry → Exec α}
    {Q : α → α → Machine → Machine → Prop}
    (h : ∀ e : OpcodeEntry, e.Prepared → Sim (Knows decodeReady) (f e) (f e) Q) :
    Sim (Knows K) (fetchEntry escape >>= f) (fetchEntry escape >>= f) Q := by
  have hfetch : Sim (Knows K) (fetchEntry escape) (fetchEntry escape)
      fun e e' s t => Alike (Knows decodeReady) e e' s t ∧ e.Prepared := by
    refine (instrFetch_sim 1).andThen fun b => ?_
    -- from here on nothing of an earlier instruction is known
    refine Sim.andThen (R := Knows (insert .opcode ∅))
      (modifyDecinfo_sim fun s t hst => { hst with
        opcode := fun _ => rfl
        extOpcode := fun hl => by simp at hl
        s0 := fun hl => by simp at hl
        s1 := fun hl => by simp at hl
        operand := fun op => ⟨fun hl => by simp at hl, fun hl => by simp at hl,
          fun hl => by simp at hl, fun hl => by simp at hl⟩ }) fun _ => ?_
    refine (setWidth_sim _ (Set.mem_insert _ _)).andThen fun _ => ?_
    intro s t e s' hst hrun
    cases hrun
    exact ⟨_, t, rfl, ⟨rfl, hst⟩, opcodeTable_prepared _⟩
  refine hfetch.bind fun e e' s t a s' hQ hrun => ?_
  rcases hQ with ⟨⟨rfl, hst⟩, he⟩
  exact h e' he s t a s' hst hrun

theorem operandWrite_sim {op : OperandId} (hw : .width op ∈ K) (hp : .place op ∈ K) (src : Word) :
    Sim (Knows K) (operandWrite op src) (operandWrite op src) (Alike (Knows K)) := by
  refine getOperand_sim fun o o' h => ?_
  rw [h.width hw, (h.place hp).1, (h.place hp).2]
  split
  · exact rtlSr_sim _ _ _
  · exact rtlSm_sim _ _ _
  · exact Sim.throw _

theorem execMov_sim (hready : ∀ l ∈ movReady, l ∈ K) :
    Sim (Knows K) execMov execMov (Alike (Knows K)) := by
  refine getOperand_sim fun src src' h => ?_
  rw [h.val (hready _ (.inr (.inr (.inl rfl))))]
  have hwrite := operandWrite_sim (hready _ (.inl ⟨.dest, rfl⟩)) (hready _ (.inr (.inl rfl))) src.val
  refine hwrite.andThen fun _ => getOperand_sim fun s s' hs => getOperand_sim fun d d' hd => ?_
  rw [hs.str (hready _ (.inr (.inr (.inr (.inl rfl))))),
    hd.str (hready _ (.inr (.inr (.inr (.inr rfl))))), hd.width (hready _ (.inl ⟨.dest, rfl⟩))]
  exact printAsm_sim _

theorem rtlExit_sim (state : RunState) (haltPc haltRet : Word) :
    Sim (Knows K) (rtlExit state haltPc haltRet) (rtlExit state haltPc haltRet)
      (Alike (Knows K)) :=
  Sim.modify fun _ _ h => { h with nemuState := rfl }

theorem execInv_sim : Sim (Knows K) execInv execInv (Alike (Knows K)) := by
  refine Sim.get fun s t hst => ?_
  rw [hst.cpu]
  refine Sim.andThen (R := Knows K) (modifyDecinfo_sim fun _ _ h => { h with seqPc := rfl })
    fun _ => ?_
  refine (instrFetch_sim 4).andThen fun _ => (instrFetch_sim 4).andThen fun _ => ?_
  exact (rtlExit_sim _ _ _).andThen fun _ => printAsm_sim _

theorem execNemuTrap_sim : Sim (Knows K) execNemuTrap execNemuTrap (Alike (Knows K)) := by
  refine skipRef_sim.andThen fun _ => Sim.get fun s t hst => ?_
  rw [hst.cpu]
  exact (rtlExit_sim _ _ _).andThen fun _ => printAsm_sim _

theorem setOperandSize16_sim (b : Bool) :
    Sim (Knows K) (setOperandSize16 b) (setOperandSize16 b) (Alike (Knows K)) :=
  modifyDecinfo_sim fun _ _ h => { h with size16 := rfl }

theorem execHelper_sim {idex : OpcodeEntry → Exec Unit}
    (hidex : ∀ e : OpcodeEntry, e.Prepared →
      Sim (Knows decodeReady) (idex e) (idex e) (Alike (Knows ∅)))
    {x : EHelper} (hready : ∀ l ∈ decodeReady, l ∈ K) (hmov : x = .mov → ∀ l ∈ movReady, l ∈ K) :
    Sim (Knows K) (x.run idex) (x.run idex) (Alike (Knows ∅)) := by
  have hnone : ∀ l ∈ (∅ : Set Loc), l ∈ K := fun l hl => hl.elim
  cases x with
  | inv => exact sim_forget execInv_sim hnone
  | mov => exact sim_forget (execMov_sim (hmov rfl)) hnone
  | nemuTrap => exact sim_forget execNemuTrap_sim hnone
  | operandSize =>
      refine (setOperandSize16_sim true).andThen fun _ => fetchEntry_sim fun e he => ?_
      exact (hidex e he).andThen fun _ => setOperandSize16_sim false
  | twoByteEsc => exact fetchEntry_sim hidex
  | group g =>
      refine Sim.get fun s t _ => ?_
      -- the entries of all groups are empty, whatever `ext_opcode` is
      have hempty := hidex empty empty_prepared
      exact fun s' t' a s'' hst hrun => hempty s' t' a s'' (hst.mono hready) hrun

theorem idex_sim (fuel : Nat) (e : OpcodeEntry) (he : e.Prepared) :
    Sim (Knows decodeReady) (idex fuel e) (idex fuel e) (Alike (Knows ∅)) := by
  induction fuel generalizing e with
  | zero => exact Sim.throw _
  | succ fuel ih =>
      unfold idex OpcodeEntry.runDecode
      cases hdecode : e.decode with
      | none =>
          refine Sim.andThen (Sim.pure _) fun _ => execHelper_sim ih (fun _ hl => hl) fun hx => ?_
          rcases he hx with ⟨d, hd, -⟩
          cases hdecode.symm.trans hd
      | some d =>
          refine (decodeHelper_sim d).andThen fun _ =>
            execHelper_sim ih (decodeReady_known d) fun hx => ?_
          rcases he hx with ⟨d', hd, hmov⟩
          cases hdecode.symm.trans hd
          exact movReady_known hmov

theorem updatePc_sim : Sim (Knows K) updatePc updatePc (Alike (Knows K)) := by
  refine Sim.modify fun s t hst => ?_
  dsimp only
  rw [hst.isJmp]
  split
  · exact { hst with isJmp := rfl }
  · refine { hst with cpu := ?_ }
    change CPUState.mk t.cpu.gpr t.decinfo.seqPc = CPUState.mk s.cpu.gpr s.decinfo.seqPc
    rw [hst.cpu, hst.seqPc]

/-- The machines agree on what counts between instructions; `seq_pc` is set first. -/
def SameStart (s t : Machine) : Prop :=
  Knows ∅ { s with decinfo := { s.decinfo with seqPc := s.cpu.pc } }
    { t with decinfo := { t.decinfo with seqPc := t.cpu.pc } }

theorem isaExec_sim : Sim (Knows ∅) isaExec isaExec (Alike (Knows ∅)) :=
  fetchEntry_sim fun e he => idex_sim _ e he

theorem execOnce_sim : Sim SameStart execOnce execOnce (Alike (Knows ∅)) := by
  have hrest : Sim (Knows ∅)
      (isaExec >>= fun _ => updatePc >>= fun _ => checkTrace >>= fun _ => do
        return (← get).decinfo.seqPc)
      (isaExec >>= fun _ => updatePc >>= fun _ => checkTrace >>= fun _ => do
        return (← get).decinfo.seqPc)
      (Alike (Knows ∅)) := by
    refine isaExec_sim.andThen fun _ => updatePc_sim.andThen fun _ => ?_
    refine checkTrace_sim.andThen fun _ => Sim.get fun s t hst => ?_
    rw [hst.seqPc]
    exact Sim.pure _
  intro s t a s' hst hrun
  exact hrest _ _ a s' hst hrun

end Execute

end Nemu
