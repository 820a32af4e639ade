import Nemu.QemuDiff.BlockTransfer
import Nemu.QemuDiff.Line

/-!
# The machine behind the stub

What NEMU sees of QEMU: registers, memory and steps.  A stub that serves such a machine, over any
line that gets its packets across, is that machine to every sequence of calls of the library.
-/

namespace Nemu

open LittleEndian StateRules

/-! ## The machine -/

/-- What `union isa_gdb_regs` holds of a machine. -/
structure RegFile where
  bytes : List Byte
  length_eq : bytes.length = gdbRegsSize

/-- The bytes from `k` on written over. -/
def RegFile.write (file : RegFile) (k : Nat) (bytes : List Byte) : RegFile :=
  { bytes := bytesAt (memcpy (fun i => file.bytes.getD i 0) k bytes) gdbRegsSize
    length_eq := length_bytesAt _ _ }

structure Target where
  regs : RegFile
  mem : Nat → Byte

namespace Target

variable (step : Target → Target) (isa : Isa)

def store (t : Target) (addr : Nat) (bytes : List Byte) : Target :=
  { t with mem := memcpy t.mem addr bytes }

def setRegs (t : Target) (k : Nat) (bytes : List Byte) : Target :=
  { t with regs := t.regs.write k bytes }

/-- What `init_isa` is for: the code stands in memory, and has been running for 20 steps. -/
def init (t : Target) : Target :=
  match isa with
  | .x86 =>
      step^[20] (((t.store 0x7c00 mbr).setRegs 32 (bytesOf 0x7c00 4)).setRegs 40 (bytesOf 0 4))
  | .riscv32 =>
      step^[20] ((t.store 0x80000000 (initcode.flatMap fun w => bytesOf w 4)).setRegs 128
        (bytesOf 0x80000000 4))
  | .mips32 => t

/-- A call, as NEMU means it. -/
def call (t : Target) : DiffCall → Option (Nat → Byte) × Target
  | .initIsa => (none, t.init step isa)
  | .memcpyFromDut dest src n => (none, t.store dest.toNat (bytesAt src n.toNat))
  | .getregs r => (some (memcpy r 0 (t.regs.bytes.take isa.difftestRegSize)), t)
  | .setregs r => (none, t.setRegs 0 (bytesAt r isa.difftestRegSize))
  | .exec n => (none, step^[n.toNat] t)

def calls (t : Target) : List DiffCall → List (Option (Nat → Byte)) × Target
  | [] => ([], t)
  | c :: cs =>
      let r := t.call step isa c
      let rs := r.2.calls cs
      (r.1 :: rs.1, rs.2)

end Target

/-- The length of a block is an `int`, and the block does not reach past the end of the address
space. -/
def DiffCall.Fits : DiffCall → Prop
  | memcpyFromDut dest _ n => n.toNat < 2 ^ 31 ∧ dest.toNat + n.toNat ≤ 2 ^ 32
  | _ => True

/-! ## The stub -/

/-- The commands of the library, as the protocol documents them. -/
structure Stub.Serves {S : Type} (stub : Stub S) (step : Target → Target) (view : S → Target) :
    Prop where
  get : ∀ s, (stub.reply [chr 'g'] s).1.payload = Hex.ofBytes (view s).regs.bytes ∧
    view (stub.reply [chr 'g'] s).2 = view s
  set : ∀ s (file : RegFile),
    (stub.reply (chr 'G' :: Hex.ofBytes file.bytes) s).1.payload = okText ∧
      view (stub.reply (chr 'G' :: Hex.ofBytes file.bytes) s).2 = { view s with regs := file }
  store : ∀ s command addr bytes, parseStore command = some (addr, bytes) →
    (stub.reply command s).1.payload = okText ∧
      view (stub.reply command s).2 = (view s).store addr bytes
  step : ∀ s, view (stub.reply stepCommand s).2 = step (view s)

/-! ## Register files -/

/-- The array holds the file. -/
def HoldsRegs (q : IsaGdbRegs) (file : RegFile) : Prop := bytesAt q gdbRegsSize = file.bytes

section RegFile

variable {q : IsaGdbRegs} {file : RegFile}

theorem HoldsRegs.of_holds (h : Holds q 0 file.bytes) : HoldsRegs q file := by
  refine List.ext_getElem ((length_bytesAt q _).trans file.length_eq.symm) fun j hj hj' => ?_
  have hbyte := h j hj'
  rw [Nat.zero_add] at hbyte
  rw [getElem_bytesAt, hbyte]

theorem HoldsRegs.apply (h : HoldsRegs q file) {j : Nat} (hj : j < gdbRegsSize) :
    file.bytes.getD j 0 = q j := by
  have hlt : j < (bytesAt q gdbRegsSize).length := by rwa [length_bytesAt]
  rw [← h, List.getD_eq_getElem _ _ hlt, getElem_bytesAt]

/-- Writing to the array is writing to the file. -/
theorem HoldsRegs.write (h : HoldsRegs q file) (k : Nat) (bytes : List Byte) :
    HoldsRegs (memcpy q k bytes) (file.write k bytes) := by
  refine List.map_congr_left fun j hj => ?_
  have hbyte := h.apply (List.mem_range.1 hj)
  unfold memcpy
  simp only [hbyte]

theorem bytesAt_take (f : Nat → Byte) {k n : Nat} (h : k ≤ n) :
    (bytesAt f n).take k = bytesAt f k := by
  rw [bytesAt_split f h, List.take_left' (length_bytesAt f k)]

theorem HoldsRegs.take (h : HoldsRegs q file) {k : Nat} (hk : k ≤ gdbRegsSize) :
    bytesAt q k = file.bytes.take k := by
  rw [← h, bytesAt_take q hk]

theorem store_eq_memcpy (r : Nat → Byte) (k : Nat) (v : Word) :
    LittleEndian.store r k 4 v = memcpy r k (bytesOf v 4) := by
  funext i
  have hbytes : bytesOf v 4 = bytesAt (byteOf v) 4 := rfl
  rw [store_apply, hbytes, memcpy_bytesAt]

theorem HoldsRegs.setWord (h : HoldsRegs q file) (k : Nat) (v : Word) :
    HoldsRegs (q.setWord k v) (file.write (4 * k) (bytesOf v 4)) := by
  rw [IsaGdbRegs.setWord, store_eq_memcpy]
  exact h.write (4 * k) (bytesOf v 4)

end RegFile

/-! ## What a function does to the machine -/

section Performs

variable {S : Type} {stub : Stub S} {weather : Nat → Weather} {step : Target → Target}
variable {view : S → Target} {tries : Nat} {α β : Type} {t t' t'' : Target}

/-- Run between two commands, with the machine at `t`, `x` returns `a` and leaves the machine at
`t'`. -/
def Performs (view : S → Target) (x : OnConn (Line S) α) (t : Target) (a : α) (t' : Target) :
    Prop :=
  ∀ s conn, Idle s conn → view s = t →
    ∃ s' conn', x conn = .ok a conn' ∧ Idle s' conn' ∧ view s' = t'

theorem Performs.pure (a : α) (t : Target) :
    Performs view (Pure.pure a : OnConn (Line S) α) t a t :=
  fun s conn hidle hview => ⟨s, conn, rfl, hidle, hview⟩

theorem Performs.bind {x : OnConn (Line S) α} {f : α → OnConn (Line S) β} {a : α} {b : β}
    (hx : Performs view x t a t') (hf : Performs view (f a) t' b t'') :
    Performs view (x >>= f) t b t'' := by
  intro s conn hidle hview
  rcases hx s conn hidle hview with ⟨s', conn', hrun, hidle', hview'⟩
  rcases hf s' conn' hidle' hview' with ⟨s'', conn'', hrun', hidle'', hview''⟩
  exact ⟨s'', conn'', (bind_ok hrun).trans hrun', hidle'', hview''⟩

theorem Performs.cAssert (t : Target) :
    Performs view (Nemu.cAssert true : OnConn (Line S) PUnit) t ⟨⟩ t :=
  .pure _ _

/-- One command, which leaves the machine at `t'`. -/
theorem Performs.ask (hw : ∀ k, (weather k).Clears tries) {buf : List Byte} {size : Nat}
    {g : List Byte → OnConn (Line S) β} {b : β} (t' : Target)
    (h : ∀ s, view s = t → view (stub.reply (buf.take size) s).2 = t' ∧
      Performs view (g ((stub.reply (buf.take size) s).1.payload ++ [0])) t' b t'') :
    Performs view (gdbSend (stub.onLine weather) buf size tries >>= fun _ =>
      gdbRecv (stub.onLine weather) tries >>= g) t b t'' := by
  intro s conn hidle hview
  rcases h s hview with ⟨hview', hg⟩
  have hcall := @gdbCall_onLine S stub weather tries hw (buf.take size) s conn hidle
  generalize hrun : gdbCall (stub.onLine weather) tries (buf.take size) conn = r at hcall
  cases hcall with
  | ok hidle' =>
      rename_i conn'
      rcases hg _ conn' hidle' hview' with ⟨s'', conn'', hrun', hidle'', hview''⟩
      refine ⟨s'', conn'', ?_, hidle'', hview''⟩
      rw [gdbSend_take, ← bind_assoc]
      exact (bind_ok hrun).trans hrun'

/-! ## The functions of the library -/

/-- What is sent of a command in front of its terminator. -/
theorem take_strlen {text : List Byte} (h : ∀ b ∈ text, b ≠ 0) :
    (text ++ [0]).take (strlen (text ++ [0])) = text := by
  rw [strlen_text h, List.take_left]

theorem setCommand_ne_zero (bytes : List Byte) : ∀ b ∈ chr 'G' :: Hex.ofBytes bytes, b ≠ 0 := by
  have hdigit : ∀ n < 16, Hex.digit n ≠ 0 := by decide
  intro b hb
  rcases List.mem_cons.1 hb with rfl | hb
  · decide
  · rcases Hex.mem_ofBytes hb with ⟨n, hn, rfl⟩
    exact hdigit n hn

section Functions

variable (hserves : stub.Serves step view) (hw : ∀ k, (weather k).Clears tries)

include hserves hw

theorem performs_gdbMemcpyToQemuSmall (t : Target) (dest : Word) (src : Nat → Byte) (len : Nat) :
    Performs view (gdbMemcpyToQemuSmall (stub.onLine weather) tries dest src len) t true
      (t.store dest.toNat (bytesAt src len)) := by
  have htext : storeHeader dest len ++ hexDigits (bytesAt src len) =
      storeCommand dest (bytesAt src len) := by
    rw [storeCommand, hexDigits_eq, length_bytesAt]
  have hsize := take_strlen fun b (hb : b ∈ storeCommand dest (bytesAt src len)) =>
    storeCommand_ne_zero hb
  rw [gdbMemcpyToQemuSmall, htext]
  refine .ask hw (t.store dest.toNat (bytesAt src len)) fun s hview => ?_
  rw [hsize]
  rcases hserves.store s _ _ _ (parseStore_storeCommand dest (bytesAt src len)) with
    ⟨hreply, hmem⟩
  refine ⟨hmem.trans (by rw [hview]), ?_⟩
  rw [hreply, IsReply.cString (.inl rfl)]
  exact .pure _ _

/-- By induction on the length, a packet at a time. -/
theorem performs_memcpyToQemuLoop (len : Nat) : ∀ (t : Target) (dest : Word) (src : Nat → Byte)
    (ok : Bool), dest.toNat + len ≤ 2 ^ 32 →
      Performs view (memcpyToQemuLoop (stub.onLine weather) tries dest src len ok) t ok
        (t.store dest.toNat (bytesAt src len)) := by
  induction len using Nat.strongRecOn with
  | ind len ih =>
      intro t dest src ok hfit
      have hsmall := fun n => performs_gdbMemcpyToQemuSmall hserves hw t dest src n
      rw [memcpyToQemuLoop]
      by_cases hlong : mtu < len
      · have hmtu : mtu = 1500 := rfl
        have hnext : (dest + BitVec.ofNat 32 mtu).toNat = dest.toNat + mtu := by
          rw [BitVec.toNat_add, BitVec.toNat_ofNat]
          omega
        have hrest := ih (len - mtu) (by omega) (t.store dest.toNat (bytesAt src mtu))
          (dest + BitVec.ofNat 32 mtu) (fun i => src (mtu + i)) (ok && true) (by omega)
        -- the rest begins where the packet ends
        have hjoin : (t.store dest.toNat (bytesAt src mtu)).store (dest.toNat + mtu)
            (bytesAt (fun i => src (mtu + i)) (len - mtu)) =
              t.store dest.toNat (bytesAt src len) := by
          have happend := memcpy_append t.mem dest.toNat (bytesAt src mtu)
            (bytesAt (fun i => src (mtu + i)) (len - mtu))
          rw [length_bytesAt, ← bytesAt_split src (Nat.le_of_lt hlong)] at happend
          exact congrArg (fun mem => { t with mem := mem }) happend
        rw [hnext, hjoin, Bool.and_true] at hrest
        rw [if_pos hlong]
        refine (hsmall mtu).bind ?_
        rwa [Bool.and_true]
      · rw [if_neg hlong]
        refine (hsmall len).bind ?_
        rw [Bool.and_true]
        exact .pure _ _

theorem performs_gdbGetregs (t : Target) (r : IsaGdbRegs) :
    ∃ q, HoldsRegs q t.regs ∧
      Performs view (gdbGetregs (stub.onLine weather) tries r) t (true, q) t := by
  rcases getregsLoop_ofBytes 0 (n := gdbRegsWords) t.regs.length_eq r with ⟨q, hloop, hholds, -⟩
  refine ⟨q, .of_holds hholds, ?_⟩
  rw [gdbGetregs]
  refine .ask hw t fun s hview => ?_
  rcases hserves.get s with ⟨hreply, hsame⟩
  refine ⟨hsame.trans hview, ?_⟩
  have hpayload : (stub.reply ([chr 'g'].take 1) s).1.payload = Hex.ofBytes t.regs.bytes :=
    hreply.trans (by rw [hview])
  rw [hpayload, hloop]
  exact .pure _ _

theorem performs_gdbSetregs {q : IsaGdbRegs} {file : RegFile} (h : HoldsRegs q file)
    (t : Target) :
    Performs view (gdbSetregs (stub.onLine weather) tries q) t true { t with regs := file } := by
  have hsize := take_strlen (setCommand_ne_zero file.bytes)
  rw [gdbSetregs, hexDigits_eq, show bytesAt q gdbRegsSize = file.bytes from h]
  refine .ask hw { t with regs := file } fun s hview => ?_
  rcases hserves.set s file with ⟨hreply, hregs⟩
  rw [List.cons_append] at hsize
  rw [hsize, hreply, IsReply.cString (.inl rfl)]
  exact ⟨hregs.trans (by rw [hview]), .pure _ _⟩

theorem performs_difftestExec (n : Nat) (t : Target) :
    Performs view (difftestExec (stub.onLine weather) tries n) t ⟨⟩ (step^[n] t) := by
  induction n generalizing t with
  | zero => exact .pure _ _
  | succ n ih =>
      have hsi : Performs view (gdbSi (stub.onLine weather) tries) t true (step t) := by
        rw [gdbSi]
        refine .ask hw (step t) fun s hview => ?_
        have hsize : (stepCommand ++ [0]).take (strlen (stepCommand ++ [0])) = stepCommand :=
          take_strlen (by decide)
        rw [hsize]
        exact ⟨(hserves.step s).trans (by rw [hview]), .pure _ _⟩
      exact hsi.bind (ih (step t))

/-- The code, the registers as `setRegs` leaves them, and 20 steps. -/
theorem performs_startCode (t : Target) {dest : Word} {code : List Byte}
    (hfit : dest.toNat + code.length ≤ 2 ^ 32) {setRegs : IsaGdbRegs → IsaGdbRegs}
    {file : RegFile} (hset : ∀ q, HoldsRegs q t.regs → HoldsRegs (setRegs q) file)
    (qemuR : IsaGdbRegs) :
    Performs view (startCode (stub.onLine weather) tries dest code setRegs qemuR) t ⟨⟩
      (step^[20] { t.store dest.toNat code with regs := file }) := by
  have hcode : bytesAt (fun i => code.getD i 0) code.length = code := by
    refine List.ext_getElem (length_bytesAt _ _) fun j hj hj' => ?_
    rw [getElem_bytesAt, List.getD_eq_getElem _ _ hj']
  have hcopy := performs_memcpyToQemuLoop hserves hw code.length t dest
    (fun i => code.getD i 0) true hfit
  rw [hcode] at hcopy
  rcases performs_gdbGetregs hserves hw (t.store dest.toNat code) qemuR with ⟨q, hq, hget⟩
  have hregs := performs_gdbSetregs hserves hw (hset q hq) (t.store dest.toNat code)
  refine hcopy.bind ((Performs.cAssert _).bind (hget.bind (hregs.bind ?_)))
  exact (Performs.cAssert _).bind (performs_difftestExec hserves hw 20 _)

theorem performs_initIsa (isa : Isa) (qemuR : IsaGdbRegs) (t : Target) :
    Performs view (QemuDiff.initIsa (stub.onLine weather) tries isa qemuR) t ⟨⟩
      (t.init step isa) := by
  cases isa with
  | x86 =>
      exact performs_startCode hserves hw t (by decide)
        (fun q hq => (hq.setWord 8 0x7c00).setWord 10 0x0000) qemuR
  | riscv32 =>
      exact performs_startCode hserves hw t (by decide)
        (fun q hq => hq.setWord 32 0x80000000) qemuR
  | mips32 => exact .pure _ _

/-! ## Calls -/

theorem performs_call (isa : Isa) (qemuR : IsaGdbRegs) (t : Target) {c : DiffCall}
    (hfit : c.Fits) :
    Performs view (c.run (stub.onLine weather) tries isa qemuR) t (t.call step isa c).1
      (t.call step isa c).2 := by
  cases c with
  | initIsa => exact (performs_initIsa hserves hw isa qemuR t).bind (.pure _ _)
  | memcpyFromDut dest src n =>
      have hcopy := performs_memcpyToQemuLoop hserves hw n.toNat t dest src true hfit.2
      rw [DiffCall.run, QemuDiff.difftestMemcpyFromDut_eq _ tries dest src hfit.1]
      exact (hcopy.bind (.cAssert _)).bind (.pure _ _)
  | getregs r =>
      rcases performs_gdbGetregs hserves hw t qemuR with ⟨q, hq, hget⟩
      have hblock := hq.take isa.difftestRegSize_le
      rw [Target.call, ← hblock]
      have hregs : Performs view (difftestGetregs (stub.onLine weather) tries isa r qemuR) t
          (memcpy r 0 (bytesAt q isa.difftestRegSize)) t := hget.bind (.pure _ _)
      exact hregs.bind (.pure _ _)
  | setregs r =>
      rcases performs_gdbGetregs hserves hw t qemuR with ⟨q, hq, hget⟩
      have hset := performs_gdbSetregs hserves hw (hq.write 0 (bytesAt r isa.difftestRegSize)) t
      have hregs : Performs view (difftestSetregs (stub.onLine weather) tries isa r qemuR) t ⟨⟩
          (t.setRegs 0 (bytesAt r isa.difftestRegSize)) := hget.bind (hset.bind (.pure _ _))
      exact hregs.bind (.pure _ _)
  | exec n => exact (performs_difftestExec hserves hw n.toNat t).bind (.pure _ _)

theorem performs_session (isa : Isa) (qemuR : IsaGdbRegs) {calls : List DiffCall}
    (hfit : ∀ c ∈ calls, c.Fits) (t : Target) :
    Performs view (session (stub.onLine weather) tries isa qemuR calls) t
      (t.calls step isa calls).1 (t.calls step isa calls).2 := by
  induction calls generalizing t with
  | nil => exact .pure _ _
  | cons c cs ih =>
      rcases List.forall_mem_cons.1 hfit with ⟨hc, hcs⟩
      have hcall := performs_call hserves hw isa qemuR t hc
      exact hcall.bind ((ih hcs (t.call step isa c).2).bind (.pure _ _))

end Functions

/-- NEMU's view of QEMU: over any line that gets each packet across within `tries` copies, whatever
the encoding of the replies, every sequence of calls returns what the machine returns, and leaves
the machine that the calls leave. -/
theorem session_target (hserves : stub.Serves step view) (hw : ∀ k, (weather k).Clears tries)
    (isa : Isa) (qemuR : IsaGdbRegs) {calls : List DiffCall} (hfit : ∀ c ∈ calls, c.Fits) (s : S) :
    ∃ s', outcome (session (stub.onLine weather) tries isa qemuR calls (Stub.start s)) =
        .ok ((view s).calls step isa calls).1 s' ∧
      view s' = ((view s).calls step isa calls).2 := by
  rcases performs_session hserves hw isa qemuR hfit (view s) s _ (idle_start s) rfl with
    ⟨s', conn', hrun, hidle, hview⟩
  refine ⟨s', ?_, hview⟩
  rw [hrun]
  exact congrArg _ hidle.stub

end Performs

/-! ## A stub -/

/-- The stub of a machine with the steps `step`. -/
def machineStub (step : Target → Target) : Stub Target where
  reply command t :=
    match parseStore command with
    | some (addr, bytes) => (.ofPayload okText, t.store addr bytes)
    | none =>
        if command = stepCommand then (.ofPayload [chr 'T', chr '0', chr '5'], step t)
        else if command = [chr 'g'] then (.ofPayload (Hex.ofBytes t.regs.bytes), t)
        else
          -- what is left is `G`
          match Hex.toBytes (command.drop 1) with
          | some bytes =>
              if h : bytes.length = gdbRegsSize then
                (.ofPayload okText, { t with regs := ⟨bytes, h⟩ })
              else (.ofPayload [], t)
          | none => (.ofPayload [], t)

theorem machineStub_serves (step : Target → Target) : (machineStub step).Serves step id where
  get t := ⟨Encoded.payload_ofPayload _, rfl⟩
  set t file := by
    have hreply : (machineStub step).reply (chr 'G' :: Hex.ofBytes file.bytes) t =
        (.ofPayload okText, { t with regs := file }) := by
      have hparse : parseStore (chr 'G' :: Hex.ofBytes file.bytes) = none := rfl
      have hstep : chr 'G' :: Hex.ofBytes file.bytes ≠ stepCommand := fun h =>
        absurd (List.cons.inj h).1 (by decide)
      have hget : chr 'G' :: Hex.ofBytes file.bytes ≠ [chr 'g'] := fun h =>
        absurd (List.cons.inj h).1 (by decide)
      have hbytes : Hex.toBytes ((chr 'G' :: Hex.ofBytes file.bytes).drop 1) = some file.bytes :=
        Hex.toBytes_ofBytes _
      simp only [machineStub, hparse, if_neg hstep, if_neg hget, hbytes, dif_pos file.length_eq]
    rw [hreply]
    exact ⟨Encoded.payload_ofPayload _, rfl⟩
  store t command addr bytes hparse := by
    simp only [machineStub, hparse]
    exact ⟨Encoded.payload_ofPayload _, rfl⟩
  step t := rfl

/-- A machine that adds one to the byte at 0 with each step, over a line that damages one copy of
everything. -/
theorem session_target_bad :
    ∃ t, outcome (session
        ((machineStub fun t => t.store 0 [t.mem 0 + 1]).onLine fun _ => .bad) 2 .riscv32
        (fun _ => 0) [.memcpyFromDut 0x80000000 (fun i => BitVec.ofNat 8 i) 3000, .exec 2,
          .getregs fun _ => 1]
        (Stub.start ⟨⟨List.replicate gdbRegsSize 0, List.length_replicate⟩, fun _ => 0⟩)) =
          .ok [none, none, some (memcpy (fun _ => 1) 0 ((List.replicate gdbRegsSize 0).take 132))] t ∧
      t.mem 0 = 2 := by
  have hfit : ∀ c ∈ [DiffCall.memcpyFromDut 0x80000000 (fun i => BitVec.ofNat 8 i) 3000, .exec 2,
      .getregs fun _ => 1], c.Fits := by
    simp [DiffCall.Fits]
  rcases session_target (machineStub_serves fun t => t.store 0 [t.mem 0 + 1])
    (fun _ => Weather.bad_clears) .riscv32 (fun _ => 0) hfit
    ⟨⟨List.replicate gdbRegsSize 0, List.length_replicate⟩, fun _ => 0⟩ with ⟨t, hrun, hview⟩
  refine ⟨t, hrun, ?_⟩
  rw [show t = _ from hview]
  rfl

end Nemu
