import Nemu.QemuDiff.RegTransfer
import Nemu.QemuDiff.StorePacket

/-!
# Blocks to QEMU

`gdb_memcpy_to_qemu` cuts a block into packets of at most 1500 bytes.  For a server that writes what
the packets say into its memory, the whole is one `memcpy`.
-/

namespace Nemu

open StateRules

/-! ## Pieces of a block -/

/-- Two writes of which the second begins where the first ends. -/
theorem memcpy_append (f : Nat → Byte) (a : Nat) (l m : List Byte) :
    memcpy (memcpy f a l) (a + l.length) m = memcpy f a (l ++ m) := by
  funext i
  unfold memcpy
  by_cases hin : a ≤ i
  · rw [if_pos hin]
    by_cases hlast : a + l.length ≤ i
    · have hsub : i - a - l.length = i - (a + l.length) := by omega
      rw [if_pos hlast, if_pos hin, List.getD_append_right _ _ _ _ (by omega), hsub,
        List.getD_eq_default l _ (by omega)]
    · rw [if_neg hlast, if_pos hin, List.getD_append _ _ _ _ (by omega)]
  · rw [if_neg (by omega), if_neg hin, if_neg hin]

theorem bytesAt_split (f : Nat → Byte) {k n : Nat} (h : k ≤ n) :
    bytesAt f n = bytesAt f k ++ bytesAt (fun i => f (k + i)) (n - k) := by
  obtain ⟨m, rfl⟩ := Nat.exists_eq_add_of_le h
  rw [Nat.add_sub_cancel_left, bytesAt, List.range_add, List.map_append, List.map_map]
  rfl

/-! ## The server -/

def okText : List Byte := [chr 'O', chr 'K']

/-- The documented replies to packet M: `OK`, and `E` with two digits. -/
def IsReply (payload : List Byte) : Prop :=
  payload = okText ∨ ∃ m n, m < 16 ∧ n < 16 ∧ payload = [chr 'E', Hex.digit m, Hex.digit n]

/-- A server with byte memory, which takes every packet M, writes what it says, and answers it. -/
structure Gdbserver.HasMemory {S : Type} (d : Gdbserver S) (mem : S → Nat → Byte) : Prop where
  ack : ∀ s, (d.answer [chr '+'] s).1 = [] ∧ mem (d.answer [chr '+'] s).2 = mem s
  store : ∀ s wire command addr bytes, Plain command → parseStore command = some (addr, bytes) →
    IsPacket command wire → ∃ payload reply s',
      d.answer wire s = (chr '+' :: reply, s') ∧ IsPacket payload reply ∧ IsReply payload ∧
        mem s' = memcpy (mem s) addr bytes

/-- Packets that the client sends one after the other, each with the reply to it. -/
inductive Exchanges {S : Type} (d : Gdbserver S) : S → List (List Byte × List Byte) → S → Prop
  | nil (s : S) : Exchanges d s [] s
  | cons {s s₁ s' : S} {command payload reply : List Byte} {es : List (List Byte × List Byte)}
      (hanswer : d.answer (sendPacket command) s = (chr '+' :: reply, s₁))
      (hreply : IsPacket payload reply)
      (hrest : Exchanges d (d.answer [chr '+'] s₁).2 es s') :
      Exchanges d s ((command, payload) :: es) s'

/-! ## Replies -/

theorem IsReply.plain {payload : List Byte} (h : IsReply payload) : Plain payload := by
  rcases h with rfl | ⟨m, n, hm, hn, rfl⟩
  · unfold Plain
    decide
  · have hE : chr 'E' ≠ chr '$' ∧ chr 'E' ≠ chr '#' ∧ chr 'E' ≠ chr '}' ∧ chr 'E' ≠ chr '*' := by
      decide
    intro b hb
    simp only [List.mem_cons, List.not_mem_nil, or_false] at hb
    rcases hb with rfl | rfl | rfl
    · exact hE
    · exact plain_digit m hm
    · exact plain_digit n hn

/-- `strcmp` looks at the characters in front of the terminator, which are the whole reply. -/
theorem IsReply.cString {payload : List Byte} (h : IsReply payload) :
    cString (payload ++ [0]) = payload := by
  have hnonzero : ∀ b ∈ payload, decide (b ≠ 0) = true := by
    rcases h with rfl | ⟨m, n, hm, hn, rfl⟩
    · decide
    · have hdigits : ∀ n < 16, decide (Hex.digit n ≠ 0) = true := by decide
      intro b hb
      simp only [List.mem_cons, List.not_mem_nil, or_false] at hb
      rcases hb with rfl | rfl | rfl
      · decide
      · exact hdigits m hm
      · exact hdigits n hn
  rw [Nemu.cString, List.takeWhile_append_of_pos hnonzero]
  exact List.append_nil payload

/-! ## Packets -/

section HasMemory

variable {S : Type} {d : Gdbserver S} {mem : S → Nat → Byte}

/-- One packet. -/
theorem gdbMemcpyToQemuSmall_run (hd : d.HasMemory mem) (s : S) (tries : Nat) (dest : Word)
    (src : Nat → Byte) (len : Nat) :
    ∃ payload reply s₁,
      gdbMemcpyToQemuSmall d (tries + 1) dest src len ⟨s, []⟩ =
        .ok (decide (payload = okText)) ⟨(d.answer [chr '+'] s₁).2, []⟩ ∧
      d.answer (sendPacket (storeCommand dest (bytesAt src len))) s = (chr '+' :: reply, s₁) ∧
      IsPacket payload reply ∧
      mem (d.answer [chr '+'] s₁).2 = memcpy (mem s) dest.toNat (bytesAt src len) := by
  rcases hd.store s _ _ _ _ (plain_storeCommand dest (bytesAt src len))
    (parseStore_storeCommand dest (bytesAt src len)) (sendPacket_isPacket _) with
    ⟨payload, reply, s₁, hanswer, hpacket, hreply, hmem⟩
  have hack := hd.ack s₁
  have htext : storeHeader dest len ++ hexDigits (bytesAt src len) =
      storeCommand dest (bytesAt src len) := by
    rw [storeCommand, hexDigits_eq, length_bytesAt]
  -- the terminator ends the text, and nothing in front of it does
  have hsize : (storeCommand dest (bytesAt src len) ++ [0]).take
      (strlen (storeCommand dest (bytesAt src len) ++ [0])) =
        storeCommand dest (bytesAt src len) := by
    rw [strlen_text fun b => storeCommand_ne_zero, List.take_left]
  refine ⟨payload, reply, s₁, ?_, hanswer, hpacket, hack.2.trans hmem⟩
  rw [← hsize] at hanswer
  rw [gdbMemcpyToQemuSmall, htext, bind_ok (gdbSend_taken tries hanswer)]
  refine (bind_ok (gdbRecv_packet tries hreply.plain hpacket hack.1)).trans ?_
  rw [hreply.cString]
  rfl

/-- The packets of a block: each says at most `mtu` bytes. -/
def IsStore (command : List Byte) : Prop :=
  ∃ addr bytes, parseStore command = some (addr, bytes) ∧ bytes.length ≤ mtu

theorem isStore_storeCommand (dest : Word) {src : Nat → Byte} {len : Nat} (h : len ≤ mtu) :
    IsStore (storeCommand dest (bytesAt src len)) :=
  ⟨_, _, parseStore_storeCommand _ _, by rwa [length_bytesAt]⟩

/-- The transfer of a block of `len` bytes that ends in `s'`, with the value of `ok` at its end. -/
structure Transfers (d : Gdbserver S) (mem : S → Nat → Byte) (s : S) (dest : Nat)
    (src : Nat → Byte) (len : Nat) (es : List (List Byte × List Byte)) (ok ok' : Bool) (s' : S) :
    Prop where
  exchanges : Exchanges d s es s'
  memory : mem s' = memcpy (mem s) dest (bytesAt src len)
  stores : ∀ e ∈ es, IsStore e.1
  result : ok' = true ↔ ok = true ∧ ∀ e ∈ es, e.2 = okText

/-- By induction on the length. -/
theorem memcpyToQemuLoop_run (hd : d.HasMemory mem) (tries len : Nat) :
    ∀ (s : S) (dest : Word) (src : Nat → Byte) (ok : Bool), dest.toNat + len ≤ 2 ^ 32 →
      ∃ es ok' s', memcpyToQemuLoop d (tries + 1) dest src len ok ⟨s, []⟩ = .ok ok' ⟨s', []⟩ ∧
        Transfers d mem s dest.toNat src len es ok ok' s' := by
  induction len using Nat.strongRecOn with
  | ind len ih =>
      intro s dest src ok hfit
      rw [memcpyToQemuLoop]
      by_cases hlong : mtu < len
      · have hmtu : mtu = 1500 := rfl
        rcases gdbMemcpyToQemuSmall_run hd s tries dest src mtu with
          ⟨payload, reply, s₁, hsmall, hanswer, hpacket, hmem⟩
        have hnext : (dest + BitVec.ofNat 32 mtu).toNat = dest.toNat + mtu := by
          rw [BitVec.toNat_add, BitVec.toNat_ofNat]
          omega
        rcases ih (len - mtu) (by omega) (d.answer [chr '+'] s₁).2 (dest + BitVec.ofNat 32 mtu)
          (fun i => src (mtu + i)) (ok && decide (payload = okText)) (by omega) with
          ⟨es, ok', s', hrun, htransfers⟩
        refine ⟨(storeCommand dest (bytesAt src mtu), payload) :: es, ok', s', ?_, ?_⟩
        · rw [if_pos hlong, bind_ok hsmall]
          exact hrun
        · refine ⟨.cons hanswer hpacket htransfers.exchanges, ?_, ?_, ?_⟩
          · -- the rest begins where the packet ends
            have hjoin := memcpy_append (mem s) dest.toNat (bytesAt src mtu)
              (bytesAt (fun i => src (mtu + i)) (len - mtu))
            rw [length_bytesAt] at hjoin
            rw [htransfers.memory, hmem, hnext, hjoin, ← bytesAt_split src (by omega)]
          · exact List.forall_mem_cons.2
              ⟨isStore_storeCommand dest (Nat.le_refl _), htransfers.stores⟩
          · rw [htransfers.result, Bool.and_eq_true, decide_eq_true_eq, List.forall_mem_cons,
              and_assoc]
      · rcases gdbMemcpyToQemuSmall_run hd s tries dest src len with
          ⟨payload, reply, s₁, hsmall, hanswer, hpacket, hmem⟩
        refine ⟨[(storeCommand dest (bytesAt src len), payload)],
          ok && decide (payload = okText), (d.answer [chr '+'] s₁).2, ?_, ?_⟩
        · rw [if_neg hlong, bind_ok hsmall]
          rfl
        · refine ⟨.cons hanswer hpacket (.nil _), hmem, ?_, ?_⟩
          · exact List.forall_mem_singleton.2 (isStore_storeCommand dest (Nat.le_of_not_lt hlong))
          · rw [Bool.and_eq_true, decide_eq_true_eq, List.forall_mem_singleton]

/-- `difftest_memcpy_from_dut` has copied the block when it returns, and fails its assertion if a
packet was not answered `OK`. -/
theorem difftestMemcpyFromDut_run (hd : d.HasMemory mem) (s : S) (tries : Nat) {dest : Word}
    (src : Nat → Byte) {n : BitVec 64} (hint : n.toNat < 2 ^ 31)
    (hfit : dest.toNat + n.toNat ≤ 2 ^ 32) :
    ∃ es s', Exchanges d s es s' ∧ mem s' = memcpy (mem s) dest.toNat (bytesAt src n.toNat) ∧
      QemuDiff.difftestMemcpyFromDut d (tries + 1) dest src n ⟨s, []⟩ =
        if ∀ e ∈ es, e.2 = okText then .ok ⟨⟩ ⟨s', []⟩ else .error .abort ⟨s', []⟩ := by
  rcases memcpyToQemuLoop_run hd tries n.toNat s dest src true hfit with ⟨es, ok, s', hrun, h⟩
  refine ⟨es, s', h.exchanges, h.memory, ?_⟩
  have hresult := h.result
  rw [eq_self_iff_true, true_and] at hresult
  rw [QemuDiff.difftestMemcpyFromDut_eq d _ dest src hint, gdbMemcpyToQemu, bind_ok hrun]
  cases ok with
  | false => exact (if_neg fun hall => Bool.false_ne_true (hresult.2 hall)).symm
  | true => exact (if_pos (hresult.1 rfl)).symm

/-- A block transfer is a `memcpy`: for a server that writes what the packets say, the memory holds
the block and is the same elsewhere.  No packet says more than 1500 bytes, and the result tells
whether all of them were answered `OK`. -/
theorem gdbMemcpyToQemu_memcpy (hd : d.HasMemory mem) (s : S) (tries : Nat) {dest : Word}
    (src : Nat → Byte) {len : Nat} (hfit : dest.toNat + len ≤ 2 ^ 32) :
    ∃ es ok s', gdbMemcpyToQemu d (tries + 1) dest src len ⟨s, []⟩ = .ok ok ⟨s', []⟩ ∧
      Exchanges d s es s' ∧
      (∀ i < len, mem s' (dest.toNat + i) = src i) ∧
      (∀ a, a < dest.toNat ∨ dest.toNat + len ≤ a → mem s' a = mem s a) ∧
      (∀ e ∈ es, ∃ addr bytes, parseStore e.1 = some (addr, bytes) ∧ bytes.length ≤ 1500) ∧
      (ok = true ↔ ∀ e ∈ es, e.2 = okText) := by
  rcases memcpyToQemuLoop_run hd tries len s dest src true hfit with ⟨es, ok, s', hrun, h⟩
  refine ⟨es, ok, s', hrun, h.exchanges, fun i hi => ?_, fun a ha => ?_, h.stores, ?_⟩
  · rw [h.memory, memcpy_bytesAt, if_pos (by omega), Nat.add_sub_cancel_left]
  · rw [h.memory, memcpy_bytesAt, if_neg (by omega)]
  · rw [h.result, eq_self_iff_true, true_and]

end HasMemory

/-! ## A server -/

/-- A server that knows M alone; its state is the memory. -/
def memoryServer : Gdbserver (Nat → Byte) where
  answer wire f :=
    if wire.head? = some (chr '$') then
      match parseStore (wire.tail.takeWhile (· ≠ chr '#')) with
      | some (addr, bytes) => (chr '+' :: sendPacket okText, memcpy f addr bytes)
      | none => (chr '+' :: sendPacket [chr 'E', chr '2', chr '2'], f)
    else ([], f)

theorem memoryServer_hasMemory : memoryServer.HasMemory id where
  ack _ := ⟨rfl, rfl⟩
  store := by
    rintro f _ command addr bytes hplain hparse ⟨sumText, -, rfl⟩
    have hcommand : (command ++ chr '#' :: sumText).takeWhile (· ≠ chr '#') = command := by
      rw [List.takeWhile_append_of_pos fun b hb => decide_eq_true (hplain b hb).2.1]
      simp
    have hanswer : memoryServer.answer (chr '$' :: (command ++ chr '#' :: sumText)) f =
        (chr '+' :: sendPacket okText, memcpy f addr bytes) := by
      change (match parseStore ((command ++ chr '#' :: sumText).takeWhile (· ≠ chr '#')) with
        | some (addr, bytes) => (chr '+' :: sendPacket okText, memcpy f addr bytes)
        | none => (chr '+' :: sendPacket [chr 'E', chr '2', chr '2'], f)) = _
      rw [hcommand, hparse]
    exact ⟨_, _, _, hanswer, sendPacket_isPacket _, Or.inl rfl, rfl⟩

/-- Two packets, up to the end of the address space. -/
theorem gdbMemcpyToQemu_memcpy_top :
    ∃ es ok s', gdbMemcpyToQemu memoryServer 1 0xfffff448 (fun i => BitVec.ofNat 8 i) 3000
        ⟨fun _ => 0, []⟩ = .ok ok ⟨s', []⟩ ∧
      Exchanges memoryServer (fun _ => 0) es s' ∧
      (∀ i < 3000, s' (4294964296 + i) = BitVec.ofNat 8 i) ∧
      (∀ a, a < 4294964296 ∨ 4294964296 + 3000 ≤ a → s' a = 0) ∧
      (∀ e ∈ es, ∃ addr bytes, parseStore e.1 = some (addr, bytes) ∧ bytes.length ≤ 1500) ∧
      (ok = true ↔ ∀ e ∈ es, e.2 = okText) :=
  gdbMemcpyToQemu_memcpy memoryServer_hasMemory (fun _ => 0) 0 _ (by decide)

end Nemu
