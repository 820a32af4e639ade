import Nemu.X86.Exec
import Nemu.X86.Mov

/-!
# What decoding computes

One specification for each helper, for a machine whose instruction bytes and memory operand lie in
`pmem`: decoding moves `seq_pc` forward, fills in operands, and leaves registers, memory and the
run state alone.
-/

namespace Nemu

open LittleEndian StateRules

/-! ## Reading `pmem` -/

theorem vaddrRead_inPmem {bus : Bus} {addr : Word} {len : Nat}
    (hmap : bus.pmemMap = registerPmem 0) (haddr : addr.toNat < pmemSize) (hlen : len ≤ 4) :
    vaddrRead addr len bus = .ok (load bus.pmem addr.toNat len) bus := by
  have hinside : mapInside bus.pmemMap addr = true := by
    rw [hmap, mapInside_registerPmem (by decide)]
    simpa using haddr
  have haccess : paddrReadAccess bus.pmemMap addr = ⟨.pmem, addr.toNat, 4⟩ := by
    simp [paddrReadAccess, hmap, registerPmem]
  rw [vaddrRead, paddrRead_pmem len hinside, haccess]
  exact congrArg (fun v => EStateM.Result.ok v bus)
    (load_four_and_mask bus.pmem addr.toNat len hlen)

theorem vaddrWrite_inPmem {bus : Bus} {addr data : Word} {len : Nat}
    (hmap : bus.pmemMap = registerPmem 0) (haddr : addr.toNat < pmemSize) :
    vaddrWrite addr data len bus =
      .ok ⟨⟩ { bus with pmem := store bus.pmem addr.toNat len data } := by
  have hinside : mapInside bus.pmemMap addr = true := by
    rw [hmap, mapInside_registerPmem (by decide)]
    simpa using haddr
  have haccess : paddrWriteAccess bus.pmemMap addr len = ⟨.pmem, addr.toNat, len⟩ := by
    simp [paddrWriteAccess, hmap, registerPmem]
  rw [vaddrWrite, paddrWrite_pmem data len hinside, haccess]
  rfl

theorem onBus_ok {α : Type} {x : OnBus α} {s : Machine} {a : α} {bus : Bus}
    (h : x s.bus = .ok a bus) : onBus x s = .ok a { s with bus } := by
  simp only [onBus, h]

/-! ## Frames -/

/-- `s'` comes from `s` by decoding `n` bytes. -/
structure Decoded (s : Machine) (n : Nat) (s' : Machine) : Prop where
  cpu : s'.cpu = s.cpu
  bus : s'.bus = s.bus
  nemuState : s'.nemuState = s.nemuState
  isJmp : s'.decinfo.isJmp = s.decinfo.isJmp
  isOperandSize16 : s'.decinfo.isOperandSize16 = s.decinfo.isOperandSize16
  seqPc : s'.decinfo.seqPc = s.decinfo.seqPc + BitVec.ofNat 32 n
  fetched : s'.trace.fetched = s.trace.fetched + n

theorem Decoded.trans {s s' s'' : Machine} {m n : Nat} (h : Decoded s m s')
    (h' : Decoded s' n s'') : Decoded s (m + n) s'' where
  cpu := h'.cpu.trans h.cpu
  bus := h'.bus.trans h.bus
  nemuState := h'.nemuState.trans h.nemuState
  isJmp := h'.isJmp.trans h.isJmp
  isOperandSize16 := h'.isOperandSize16.trans h.isOperandSize16
  seqPc := by
    rw [h'.seqPc, h.seqPc, BitVec.add_assoc, ← BitVec.ofNat_add]
  fetched := by
    rw [h'.fetched, h.fetched, Nat.add_assoc]

/-- What has not moved `seq_pc`. -/
abbrev Decoded.Still (s s' : Machine) : Prop := Decoded s 0 s'

theorem Decoded.zero_trans {s s' s'' : Machine} {n : Nat} (h : Decoded.Still s s')
    (h' : Decoded s' n s'') : Decoded s n s'' :=
  Nat.zero_add n ▸ h.trans h'

/-- The `n` bytes from `seq_pc` on lie in `pmem`. -/
structure Machine.Fetches (s : Machine) (l : List Byte) : Prop where
  map : s.bus.pmemMap = registerPmem 0
  bytes : Holds s.bus.pmem s.decinfo.seqPc.toNat l
  inside : s.decinfo.seqPc.toNat + l.length ≤ pmemSize

/-- After the first bytes are decoded, the rest is still there. -/
theorem Machine.Fetches.rest {s s' : Machine} {l m : List Byte} (h : s.Fetches (l ++ m))
    (hs : Decoded s l.length s') : s'.Fetches m := by
  have hin := h.inside
  have hsize : pmemSize = 134217728 := rfl
  rw [List.length_append] at hin
  have hpc : s'.decinfo.seqPc.toNat = s.decinfo.seqPc.toNat + l.length := by
    rw [hs.seqPc, BitVec.toNat_add, BitVec.toNat_ofNat]
    omega
  refine ⟨hs.bus ▸ h.map, ?_, ?_⟩
  · rw [hpc, hs.bus]
    exact (Holds.append h.bytes).2
  · rw [hpc]
    omega

theorem Machine.Fetches.take {s : Machine} {l m : List Byte} (h : s.Fetches (l ++ m)) :
    s.Fetches l := by
  have hin := h.inside
  rw [List.length_append] at hin
  exact ⟨h.map, (Holds.append h.bytes).1, by omega⟩

/-! ## Fetching -/

theorem strcatfBytebuf_forM (f : Nat → List Char) (l : List Nat) (s : Machine) :
    ∃ t, (l.forM fun i => strcatfBytebuf (f i)) s = .ok ⟨⟩ { s with trace := t } ∧
      t.fetched = s.trace.fetched := by
  induction l generalizing s with
  | nil => exact ⟨s.trace, rfl, rfl⟩
  | cons i l ih =>
      rcases ih { s with
        trace := s.trace.ofBuffers (s.trace.bytebuf ++ (f i).take (tempbufSize - 1))
          s.trace.asmbuf } with ⟨t, ht, hfetched⟩
      refine ⟨t, ?_, hfetched⟩
      change (strcatfBytebuf (f i) >>= fun _ => l.forM fun i => strcatfBytebuf (f i)) s = _
      exact (bind_ok rfl).trans ht

/-- The next bytes of the instruction, with nothing but `seq_pc` and the trace changed. -/
theorem instrFetch_spec {s : Machine} {l : List Byte} (h : s.Fetches l) (hpos : 0 < l.length)
    (hlen : l.length ≤ 4) :
    Ensures (instrFetch l.length) s fun v s' =>
      v = load s.bus.pmem s.decinfo.seqPc.toNat l.length ∧ Decoded s l.length s' ∧
        s'.decinfo.operand = s.decinfo.operand ∧ s'.s0 = s.s0 := by
  have hin := h.inside
  have hpc : s.decinfo.seqPc.toNat < pmemSize := by omega
  have hread := onBus_ok (vaddrRead_inPmem h.map hpc hlen)
  rcases strcatfBytebuf_forM
    (fun i => byteText (byteOf (load s.bus.pmem s.decinfo.seqPc.toNat l.length) i))
    (List.range l.length)
    { s with trace := { s.trace with fetched := s.trace.fetched + l.length } } with
    ⟨t, ht, hfetched⟩
  unfold instrFetch
  refine Ensures.step (get_run s) (Ensures.step hread (Ensures.step (modify_run _ _) ?_))
  refine Ensures.step ht (Ensures.step (modify_run _ _) (Ensures.of_ok (pure_run _ _) ⟨rfl, ?_⟩))
  exact ⟨⟨rfl, rfl, rfl, rfl, rfl, rfl, hfetched⟩, rfl, rfl⟩

/-- A fetched word agrees with the word that the bytes encode, on the bytes fetched. -/
theorem instrFetch_bytesOf {s : Machine} {v : Word} {n : Nat} (h : s.Fetches (bytesOf v n))
    (hpos : 0 < n) (hlen : n ≤ 4) :
    Ensures (instrFetch n) s fun w s' =>
      (∀ k < n, byteOf w k = byteOf v k) ∧ Decoded s n s' ∧
        s'.decinfo.operand = s.decinfo.operand ∧ s'.s0 = s.s0 := by
  have hspec := instrFetch_spec h (by rwa [length_bytesOf]) (by rwa [length_bytesOf])
  rw [length_bytesOf] at hspec
  refine hspec.mono fun w s' hw => ⟨fun k hk => ?_, hw.2⟩
  rw [hw.1]
  exact h.bytes.byteOf_load hlen hk

/-- A single byte. -/
theorem instrFetch_byte {s : Machine} {b : Byte} (h : s.Fetches [b]) :
    Ensures (instrFetch 1) s fun w s' =>
      w = b.setWidth 32 ∧ Decoded s 1 s' ∧ s'.decinfo.operand = s.decinfo.operand ∧
        s'.s0 = s.s0 := by
  have hspec := instrFetch_spec h Nat.zero_lt_one (Nat.le_add_left 1 3)
  refine hspec.mono fun w s' hw => ⟨?_, hw.2⟩
  rw [hw.1]
  change load _ _ 1 = _
  rw [load_one, (Holds.cons h.bytes).1]

/-! ## Operands -/

def Machine.withOperand (s : Machine) (op : OperandId) (o : Operand) : Machine :=
  { s with decinfo := { s.decinfo with operand := Function.update s.decinfo.operand op o } }

section WithOperand

variable (s : Machine) (op : OperandId) (o o' : Operand)

@[simp] theorem withOperand_self : (s.withOperand op o).decinfo.operand op = o :=
  Function.update_self _ _ _

@[simp] theorem withOperand_idem : (s.withOperand op o).withOperand op o' = s.withOperand op o' := by
  simp [Machine.withOperand]

theorem withOperand_still : Decoded.Still s (s.withOperand op o) :=
  ⟨rfl, rfl, rfl, rfl, rfl, by simp [Machine.withOperand], rfl⟩

theorem modifyOperand_run (f : Operand → Operand) :
    modifyOperand op f s = .ok ⟨⟩ (s.withOperand op (f (s.decinfo.operand op))) := rfl

theorem getOperand_run : getOperand op s = .ok (s.decinfo.operand op) s := rfl

end WithOperand

/-- The widths that operands have. -/
def ValidWidth (w : Nat) : Prop := w = 1 ∨ w = 2 ∨ w = 4

theorem ValidWidth.bounds {w : Nat} (h : ValidWidth w) : 0 < w ∧ w ≤ 4 := by
  rcases h with rfl | rfl | rfl <;> decide

/-- How an operand records a place. -/
def Place.type : Place → OpType
  | .reg _ => .reg
  | .mem _ => .mem

def Place.word : Place → Word
  | .reg r => BitVec.ofNat 32 r.val
  | .mem addr => addr

/-- The operand names the place and, once its value is loaded, holds the bytes found there. -/
structure Operand.Shows (o : Operand) (s : Machine) (p : Place) (w : Nat) (loaded : Bool) :
    Prop where
  type : o.type = p.type
  word : o.word = p.word
  width : o.width = w
  val : loaded = true → ∀ j < w, byteOf o.val j = s.byteAt (p.byteLoc w j)

/-- What a helper for one operand does: it decodes `n` bytes and fills in operand `op`. -/
structure Fills (s : Machine) (n : Nat) (op : OperandId) (o : Operand) (s' : Machine) : Prop where
  decoded : Decoded s n s'
  operand : s'.decinfo.operand = Function.update s.decinfo.operand op o

theorem Decoded.fills {s s' : Machine} {n : Nat} (h : Decoded s n s')
    (hops : s'.decinfo.operand = s.decinfo.operand) (op : OperandId) (o : Operand) :
    Fills s n op o (s'.withOperand op o) := by
  refine ⟨h.trans (withOperand_still _ _ _), ?_⟩
  rw [← hops]
  rfl

/-! ## Registers -/

theorem byteOf_setWidth_byte (b : Byte) : byteOf (b.setWidth 32) 0 = b := by
  apply BitVec.eq_of_getLsbD_eq
  intro i hi
  have h32 : i < 32 := by omega
  simp only [getLsbD_byteOf, BitVec.getLsbD_setWidth, hi, h32, decide_true, Bool.true_and,
    Nat.mul_zero, Nat.zero_add]

theorem byteOf_setWidth_half (x : Word) {j : Nat} (hj : j < 2) :
    byteOf ((x.setWidth 16).setWidth 32) j = byteOf x j := by
  apply BitVec.eq_of_getLsbD_eq
  intro i hi
  have h32 : 8 * j + i < 32 := by omega
  have h16 : 8 * j + i < 16 := by omega
  simp only [getLsbD_byteOf, BitVec.getLsbD_setWidth, hi, h32, h16, decide_true, Bool.true_and]

theorem checkRegIndex_run (r : Fin 8) (s : Machine) :
    checkRegIndex (BitVec.ofNat 32 r.val) s = .ok r s := by
  have hr : (BitVec.ofNat 32 r.val).toNat = r.val := by
    rw [BitVec.toNat_ofNat]
    omega
  simp only [checkRegIndex, hr, r.isLt, dif_pos]

theorem rtlLr_run (r : Fin 8) {w : Nat} (hw : ValidWidth w) (s : Machine) :
    ∃ v, rtlLr (BitVec.ofNat 32 r.val) w s = .ok v s ∧
      ∀ j < w, byteOf v j = s.byteAt ((Place.reg r).byteLoc w j) := by
  rcases hw with rfl | rfl | rfl
  · refine ⟨(s.cpu.gpr8 ⟨r.val % 4, mod_four_lt_eight r⟩ (r.val / 4)).setWidth 32, ?_, fun j hj => ?_⟩
    · rw [rtlLr, bind_ok (get_run s)]
      exact bind_ok (checkRegIndex_run r s)
    · have hzero : j = 0 := by omega
      rw [hzero, byteOf_setWidth_byte]
      rfl
  · refine ⟨(s.cpu.gpr16 r).setWidth 32, ?_, fun j hj => ?_⟩
    · rw [rtlLr, bind_ok (get_run s)]
      exact bind_ok (checkRegIndex_run r s)
    · have hj4 : j % 4 = j := by omega
      simp only [CPUState.gpr16, byteOf_setWidth_half _ hj, Place.byteLoc, Machine.byteAt, hj4]
      rfl
  · refine ⟨s.cpu.gpr r, ?_, fun j hj => ?_⟩
    · rw [rtlLr, bind_ok (get_run s)]
      exact bind_ok (checkRegIndex_run r s)
    · have hj4 : j % 4 = j := by omega
      simp only [Place.byteLoc, Machine.byteAt, hj4]
      rfl

theorem regNameOf_run (r : Fin 8) {w : Nat} (hw : ValidWidth w) (s : Machine) :
    ∃ name, regNameOf (BitVec.ofNat 32 r.val) w s = .ok name s := by
  have hsome : ∀ w' ∈ [1, 2, 4], ∀ r : Fin 8, (regName (BitVec.ofNat 32 r.val) w').isSome := by
    decide
  have hw' : w ∈ [1, 2, 4] := by
    rcases hw with rfl | rfl | rfl <;> decide
  rcases Option.isSome_iff_exists.1 (hsome w hw' r) with ⟨name, hname⟩
  refine ⟨name, ?_⟩
  simp only [regNameOf, hname]
  rfl

theorem printReg_run (r : Fin 8) {s : Machine} {op : OperandId}
    (hw : ValidWidth (s.decinfo.operand op).width) :
    ∃ str, printReg op (BitVec.ofNat 32 r.val) s =
      .ok ⟨⟩ (s.withOperand op { s.decinfo.operand op with str }) := by
  rcases regNameOf_run r hw s with ⟨name, hname⟩
  refine ⟨('%' :: name).take (opStrSize - 1), ?_⟩
  rw [printReg, bind_ok (getOperand_run s op), bind_ok hname]
  rfl

theorem loadReg_run (r : Fin 8) {s : Machine} {op : OperandId}
    (hw : ValidWidth (s.decinfo.operand op).width) :
    ∃ val, loadReg op (BitVec.ofNat 32 r.val) s =
        .ok ⟨⟩ (s.withOperand op { s.decinfo.operand op with val }) ∧
      ∀ j < (s.decinfo.operand op).width,
        byteOf val j = s.byteAt ((Place.reg r).byteLoc (s.decinfo.operand op).width j) := by
  rcases rtlLr_run r hw s with ⟨val, hval, hbytes⟩
  refine ⟨val, ?_, hbytes⟩
  rw [loadReg, bind_ok (getOperand_run s op), bind_ok hval, setVal, modifyOperand_run]

/-- A register operand. -/
theorem decodeReg_spec {s : Machine} {op : OperandId} (r : Fin 8) (loadVal : Bool)
    (hw : ValidWidth (s.decinfo.operand op).width) :
    Ensures (decodeReg op (BitVec.ofNat 32 r.val) loadVal) s fun _ s' =>
      ∃ o, Fills s 0 op o s' ∧
        o.Shows s (.reg r) (s.decinfo.operand op).width loadVal := by
  unfold decodeReg setPlace
  refine Ensures.step (modifyOperand_run _ _ _) ?_
  cases loadVal with
  | false =>
      rw [if_neg (by simp)]
      rcases @printReg_run r (s.withOperand op
        { s.decinfo.operand op with type := .reg, word := BitVec.ofNat 32 r.val }) op
        (by simpa using hw) with ⟨str, hstr⟩
      rw [withOperand_idem, withOperand_self] at hstr
      exact Ensures.of_ok hstr ⟨_, ⟨withOperand_still _ _ _, rfl⟩, rfl, rfl, rfl, fun h => by cases h⟩
  | true =>
      rw [if_pos rfl]
      rcases @loadReg_run r (s.withOperand op
        { s.decinfo.operand op with type := .reg, word := BitVec.ofNat 32 r.val }) op
        (by simpa using hw) with ⟨val, hval, hbytes⟩
      rw [withOperand_idem, withOperand_self] at hval
      rw [withOperand_self] at hbytes
      refine Ensures.step hval ?_
      rcases @printReg_run r (s.withOperand op
        { s.decinfo.operand op with type := .reg, word := BitVec.ofNat 32 r.val, val }) op
        (by simpa using hw) with ⟨str, hstr⟩
      rw [withOperand_idem, withOperand_self] at hstr
      exact Ensures.of_ok hstr ⟨_, ⟨withOperand_still _ _ _, rfl⟩, rfl, rfl, rfl, fun _ => hbytes⟩

/-! ## Memory and immediate operands -/

theorem byteAt_congr {s s' : Machine} (hgpr : s'.cpu.gpr = s.cpu.gpr) (hbus : s'.bus = s.bus)
    (b : ByteLoc) : s'.byteAt b = s.byteAt b := by
  cases b with
  | reg i k => simp only [Machine.byteAt, hgpr]
  | mem a => simp only [Machine.byteAt, hbus]

theorem byteAt_decoded {s s' : Machine} {n : Nat} (h : Decoded s n s') (b : ByteLoc) :
    s'.byteAt b = s.byteAt b :=
  byteAt_congr (congrArg CPUState.gpr h.cpu) h.bus b

theorem Operand.Shows.of_decoded {s s' : Machine} {n w : Nat} {o : Operand} {p : Place} {l : Bool}
    (hs : Decoded s n s') (h : o.Shows s' p w l) : o.Shows s p w l :=
  ⟨h.type, h.word, h.width, fun hl j hj => (h.val hl j hj).trans (byteAt_decoded hs _)⟩

theorem rtlLm_run {s : Machine} {addr : Word} {w : Nat} (hmap : s.bus.pmemMap = registerPmem 0)
    (hw : ValidWidth w) (hin : (Place.mem addr).InPmem w) :
    ∃ v, rtlLm addr w s = .ok v s ∧ ∀ j < w, byteOf v j = s.byteAt ((Place.mem addr).byteLoc w j) := by
  have hbound : addr.toNat + w ≤ pmemSize := hin
  have hpos := hw.bounds
  have haddr : addr.toNat < pmemSize := by omega
  refine ⟨_, onBus_ok (vaddrRead_inPmem hmap haddr hpos.2), fun j hj => ?_⟩
  rw [byteOf_load _ _ _ _ (by omega), if_pos hj]
  rfl

/-- Loading the value of an operand in memory. -/
theorem loadMem_run {s : Machine} {op : OperandId} {addr : Word} {w : Nat}
    (hmap : s.bus.pmemMap = registerPmem 0) (hw : ValidWidth w)
    (hin : (Place.mem addr).InPmem w) (ho : (s.decinfo.operand op).Shows s (.mem addr) w false) :
    ∃ v, loadMem op s = .ok ⟨⟩ (s.withOperand op { s.decinfo.operand op with val := v }) ∧
      { s.decinfo.operand op with val := v : Operand }.Shows s (.mem addr) w true := by
  rcases rtlLm_run hmap hw hin with ⟨v, hv, hbytes⟩
  refine ⟨v, ?_, ho.type, ho.word, ho.width, fun _ => hbytes⟩
  have hword : (s.decinfo.operand op).word = addr := ho.word
  rw [loadMem, bind_ok (getOperand_run s op), hword, ho.width, bind_ok hv]
  rfl

theorem decodeOpI_spec {s : Machine} {op : OperandId} {v : Word}
    (hw : ValidWidth (s.decinfo.operand op).width)
    (h : s.Fetches (bytesOf v (s.decinfo.operand op).width)) :
    Ensures (decodeOpI op) s fun _ s' =>
      ∃ o, Fills s (s.decinfo.operand op).width op o s' ∧
        ∀ j < (s.decinfo.operand op).width, byteOf o.val j = byteOf v j := by
  unfold decodeOpI
  refine Ensures.step (getOperand_run s op) ?_
  refine (instrFetch_bytesOf h hw.bounds.1 hw.bounds.2).bind fun imm s₁ h₁ => ?_
  rcases h₁ with ⟨hbytes, hdec, hops, -⟩
  rw [setPlace, setVal, printDop]
  refine Ensures.step (modifyOperand_run _ _ _) (Ensures.step (modifyOperand_run _ _ _) ?_)
  refine Ensures.of_ok (modifyOperand_run _ _ _) ?_
  simp only [withOperand_idem, withOperand_self]
  exact ⟨_, hdec.fills hops op _, hbytes⟩

theorem decodeOpO_spec {s : Machine} {op : OperandId} {addr : Word} {loadVal : Bool}
    (hw : ValidWidth (s.decinfo.operand op).width) (h : s.Fetches (bytesOf addr 4))
    (hin : loadVal = true → (Place.mem addr).InPmem (s.decinfo.operand op).width) :
    Ensures (decodeOpO op loadVal) s fun _ s' =>
      ∃ o, Fills s 4 op o s' ∧
        o.Shows s (.mem addr) (s.decinfo.operand op).width loadVal := by
  unfold decodeOpO
  have hspec := instrFetch_spec h (by simp) (by simp)
  rw [length_bytesOf] at hspec
  refine hspec.bind fun imm s₁ h₁ => ?_
  rcases h₁ with ⟨rfl, hdec, hops, -⟩
  rw [h.bytes.load_four, setPlace]
  refine Ensures.step (modifyOperand_run _ _ _) ?_
  rw [hops]
  -- the operand names its place before the value is loaded from there
  have hstill := withOperand_still s₁ op
    { s.decinfo.operand op with type := .mem, word := addr }
  have hshows : Operand.Shows { s.decinfo.operand op with type := .mem, word := addr }
      (s₁.withOperand op { s.decinfo.operand op with type := .mem, word := addr }) (.mem addr)
      (s.decinfo.operand op).width false := ⟨rfl, rfl, rfl, fun hl => by cases hl⟩
  cases loadVal with
  | false =>
      rw [if_neg (by simp)]
      refine Ensures.of_ok (modifyOperand_run _ _ _) ?_
      simp only [withOperand_idem, withOperand_self]
      exact ⟨_, hdec.fills hops op _, rfl, rfl, rfl, fun hl => by cases hl⟩
  | true =>
      rw [if_pos rfl]
      have hmap : (s₁.withOperand op
          { s.decinfo.operand op with type := .mem, word := addr }).bus.pmemMap =
            registerPmem 0 := by
        change s₁.bus.pmemMap = _
        rw [hdec.bus]
        exact h.map
      rcases @loadMem_run (s₁.withOperand op
          { s.decinfo.operand op with type := .mem, word := addr }) op addr _ hmap hw (hin rfl)
          (by simpa using hshows) with ⟨v, hv, hval⟩
      refine Ensures.step hv ?_
      refine Ensures.of_ok (modifyOperand_run _ _ _) ?_
      simp only [withOperand_idem, withOperand_self] at hval ⊢
      refine ⟨_, hdec.fills hops op _, rfl, rfl, rfl, fun _ j hj => ?_⟩
      exact (hval.of_decoded (hdec.trans hstill)).val rfl j hj

end Nemu
