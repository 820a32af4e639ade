import Mathlib.Data.List.GetD
import Nemu.QemuDiff.Exchange
import Nemu.QemuDiff.HexText

/-!
# Registers to QEMU and back

`difftest_setregs` reads the whole register file, writes over the part that the DUT has, and sends
everything back; `difftest_getregs` then finds what was sent.
-/

namespace Nemu

open LittleEndian StateRules

/-! ## Words of the register file -/

theorem bytesValue_lt {l : List Byte} (hlen : l.length = 4) : bytesValue l < 4294967296 := by
  have hlt := Nat.ofDigits_lt_base_pow_length (b := 256) (l := l.map BitVec.toNat) (by decide)
    (by simpa using fun b _ => b.isLt)
  rw [List.length_map, hlen] at hlt
  exact hlt

/-- The word that `gdb_getregs` stores. -/
def wordOf (l : List Byte) : Word := (BitVec.ofNat 64 (bytesValue l)).setWidth 32

theorem byteOf_wordOf {l : List Byte} (hlen : l.length = 4) {k : Nat} (hk : k < l.length) :
    byteOf (wordOf l) k = l[k] := by
  have hlt := bytesValue_lt hlen
  -- four bytes fit into the word, so that nothing is cut off
  have hvalue : (wordOf l).toNat = bytesValue l := by
    simp only [wordOf, BitVec.toNat_setWidth, BitVec.toNat_ofNat]
    omega
  apply BitVec.eq_of_toNat_eq
  rw [byteOf, BitVec.extractLsb'_toNat, hvalue, Nat.shiftRight_eq_div_pow, ← bytesValue_byte hk,
    Nat.pow_mul]

/-- One word: the terminator put behind it is taken away again. -/
theorem getregsLoop_step {a : List Byte} (ha : a.length = 4) (n i : Nat) (c : Byte)
    (rest : List Byte) (r : IsaGdbRegs) :
    getregsLoop (n + 1) i (Hex.ofBytes a ++ c :: rest) r =
      getregsLoop n (i + 1) (c :: rest) (store r (4 * i) 4 (wordOf a)) := by
  have hlen : (Hex.ofBytes a).length = 8 := by rw [Hex.length_ofBytes, ha]
  have hget : (Hex.ofBytes a ++ c :: rest)[8]? = some c := by
    rw [List.getElem?_append_right (by omega), hlen]
    rfl
  have hset : ∀ x y : Byte, (Hex.ofBytes a ++ x :: rest).set 8 y = Hex.ofBytes a ++ y :: rest := by
    intro x y
    rw [List.set_append_right _ _ (by omega), hlen]
    rfl
  have hdrop : (Hex.ofBytes a ++ c :: rest).drop 8 = c :: rest :=
    List.drop_left' hlen
  simp only [getregsLoop, hget, hset, hdrop, gdbDecodeHexStr_ofBytes, Option.bind_eq_bind,
    Option.bind_some]
  rfl

/-- The loop puts the bytes behind the text into the array. -/
theorem getregsLoop_ofBytes {n : Nat} (i : Nat) {l : List Byte} (hlen : l.length = 4 * n)
    (r : IsaGdbRegs) :
    ∃ r', getregsLoop n i (Hex.ofBytes l ++ [0]) r = some r' ∧ Holds r' (4 * i) l ∧
      ∀ j < 4 * i, r' j = r j := by
  induction n generalizing i l r with
  -- on the words that are left; those in front of `array[i]` stay as they are
  | zero =>
      have hnil : l = [] := List.eq_nil_of_length_eq_zero hlen
      subst hnil
      exact ⟨r, rfl, fun j hj => absurd hj (Nat.not_lt_zero j), fun _ _ => rfl⟩
  | succ n ih =>
      have htake : (l.take 4).length = 4 := by rw [List.length_take]; omega
      have hdrop : (l.drop 4).length = 4 * n := by rw [List.length_drop]; omega
      rcases ih (i + 1) hdrop (store r (4 * i) 4 (wordOf (l.take 4))) with ⟨r', hrun, hrest, hframe⟩
      -- behind the first word stands a digit of the next one or the terminator
      have htext : ∃ c rest, Hex.ofBytes (l.drop 4) ++ [0] = c :: rest :=
        List.exists_cons_of_ne_nil (by simp)
      rcases htext with ⟨c, rest, htext⟩
      have hsplit : Hex.ofBytes l ++ [0] = Hex.ofBytes (l.take 4) ++ c :: rest := by
        rw [← htext, ← List.append_assoc, ← Hex.ofBytes_append, List.take_append_drop]
      refine ⟨r', ?_, ?_, fun j hj => ?_⟩
      · rw [hsplit, getregsLoop_step htake, ← htext]
        exact hrun
      · intro j hj
        -- a byte of this word, which the later ones leave alone, or one of theirs
        by_cases hword : j < 4
        · have hbyte := byteOf_wordOf htake (k := j) (by omega)
          rw [hframe _ (by omega), store_apply, if_pos (by omega), Nat.add_sub_cancel_left, hbyte,
            List.getElem_take]
        · have hbyte := hrest (j - 4) (by omega)
          have hidx : 4 * (i + 1) + (j - 4) = 4 * i + j := by omega
          have hsum : 4 + (j - 4) = j := by omega
          rw [hidx] at hbyte
          rw [hbyte]
          simp only [List.getElem_drop, hsum]
      · rw [hframe j (by omega), store_of_lt hj]

/-! ## The server -/

/-- The register file behind the packets `g` and `G`, as the protocol documents them: `G` stores the
bytes of its text, and the reply to `g` is their lower-case text. -/
structure Gdbserver.HasRegs {S : Type} (d : Gdbserver S) (regs : S → List Byte) : Prop where
  ack : ∀ s, (d.answer [chr '+'] s).1 = [] ∧ regs (d.answer [chr '+'] s).2 = regs s
  get : ∀ s wire, IsPacket [chr 'g'] wire → ∃ reply s',
    d.answer wire s = (chr '+' :: reply, s') ∧ IsPacket (Hex.ofBytes (regs s)) reply ∧
      regs s' = regs s
  set : ∀ s wire bytes, bytes.length = (regs s).length →
    IsPacket (chr 'G' :: Hex.ofBytes bytes) wire → ∃ reply s',
      d.answer wire s = (chr '+' :: reply, s') ∧ IsPacket [chr 'O', chr 'K'] reply ∧ regs s' = bytes

section HasRegs

variable {S : Type} {d : Gdbserver S} {regs : S → List Byte}

theorem length_bytesAt (f : Nat → Byte) (n : Nat) : (bytesAt f n).length = n := by
  simp [bytesAt]

theorem getElem_bytesAt (f : Nat → Byte) (n : Nat) {j : Nat} (h : j < (bytesAt f n).length) :
    (bytesAt f n)[j] = f j := by
  simp [bytesAt]

theorem gdbGetregs_run (hd : d.HasRegs regs) {s : S} (hlen : (regs s).length = gdbRegsSize)
    (tries : Nat) (r : IsaGdbRegs) :
    ∃ s' r', gdbGetregs d (tries + 1) r ⟨s, []⟩ = .ok (true, r') ⟨s', []⟩ ∧
      regs s' = regs s ∧ Holds r' 0 (regs s) := by
  rcases hd.get s _ (sendPacket_isPacket [chr 'g']) with ⟨reply, s₁, hanswer, hreply, hregs⟩
  have hack := hd.ack s₁
  rcases getregsLoop_ofBytes 0 (n := gdbRegsWords) (by rw [hlen]; rfl) r with ⟨r', hloop, hholds, -⟩
  refine ⟨(d.answer [chr '+'] s₁).2, r', ?_, hack.2.trans hregs, hholds⟩
  rw [gdbGetregs, bind_ok (gdbSend_taken tries hanswer)]
  refine (bind_ok (gdbRecv_packet tries (plain_ofBytes _) hreply hack.1)).trans ?_
  rw [hloop]
  rfl

theorem strlen_text {text : List Byte} (h : ∀ b ∈ text, b ≠ 0) :
    strlen (text ++ [0]) = text.length := by
  have hall : ∀ b ∈ text, decide (b ≠ 0) = true := by simpa using h
  rw [strlen, cString, List.takeWhile_append_of_pos hall, List.length_append]
  rfl

theorem gdbSetregs_run (hd : d.HasRegs regs) {s : S} (hlen : (regs s).length = gdbRegsSize)
    (tries : Nat) (r : IsaGdbRegs) :
    ∃ s', gdbSetregs d (tries + 1) r ⟨s, []⟩ = .ok true ⟨s', []⟩ ∧
      regs s' = bytesAt r gdbRegsSize := by
  let text := chr 'G' :: Hex.ofBytes (bytesAt r gdbRegsSize)
  have hdigit : ∀ n < 16, Hex.digit n ≠ 0 := by decide
  -- no character ends the text early
  have hnonzero : ∀ b ∈ text, b ≠ 0 := by
    intro b hb
    rcases List.mem_cons.1 hb with rfl | hb
    · decide
    · rcases Hex.mem_ofBytes hb with ⟨n, hn, rfl⟩
      exact hdigit n hn
  have hsize : (chr 'G' :: (hexDigits (bytesAt r gdbRegsSize) ++ [0])).take
      (strlen (chr 'G' :: (hexDigits (bytesAt r gdbRegsSize) ++ [0]))) = text := by
    rw [hexDigits_eq, ← List.cons_append, strlen_text hnonzero, List.take_left]
  rcases hd.set s _ _ ((length_bytesAt r gdbRegsSize).trans hlen.symm)
    (sendPacket_isPacket text) with ⟨reply, s₁, hanswer, hreply, hregs⟩
  have hack := hd.ack s₁
  refine ⟨(d.answer [chr '+'] s₁).2, ?_, hack.2.trans hregs⟩
  rw [← hsize] at hanswer
  -- the reply `OK` needs no escaping either
  have hplain : Plain [chr 'O', chr 'K'] := by
    unfold Plain
    decide
  rw [gdbSetregs, bind_ok (gdbSend_taken tries hanswer)]
  refine (bind_ok (gdbRecv_packet tries hplain hreply hack.1)).trans ?_
  rfl

/-! ## diff-test.c -/

theorem memcpy_bytesAt (f src : Nat → Byte) (a n i : Nat) :
    memcpy f a (bytesAt src n) i = if a ≤ i ∧ i < a + n then src (i - a) else f i := by
  unfold memcpy
  by_cases hin : a ≤ i
  · rw [if_pos hin]
    by_cases hlt : i < a + n
    · rw [if_pos ⟨hin, hlt⟩, List.getD_eq_getElem _ _ (by rw [length_bytesAt]; omega),
        getElem_bytesAt]
    · rw [if_neg (fun h => hlt h.2), List.getD_eq_default _ _ (by rw [length_bytesAt]; omega)]
  · rw [if_neg hin, if_neg fun h => hin h.1]

theorem memcpy_zero (f src : Nat → Byte) (n j : Nat) :
    memcpy f 0 (bytesAt src n) j = if j < n then src j else f j := by
  simpa using memcpy_bytesAt f src 0 n j

theorem Isa.difftestRegSize_le (isa : Isa) : isa.difftestRegSize ≤ gdbRegsSize := by
  cases isa <;> decide

/-- What `difftest_setregs` sends. -/
theorem bytesAt_overwritten (isa : Isa) (r : Nat → Byte) {q : IsaGdbRegs} {file : List Byte}
    (hlen : file.length = gdbRegsSize) (hq : Holds q 0 file) :
    bytesAt (memcpy q 0 (bytesAt r isa.difftestRegSize)) gdbRegsSize =
      bytesAt r isa.difftestRegSize ++ file.drop isa.difftestRegSize := by
  have hle := isa.difftestRegSize_le
  refine List.ext_getElem ?_ fun j hj hj' => ?_
  · rw [List.length_append, length_bytesAt, length_bytesAt, List.length_drop]
    omega
  · rw [length_bytesAt] at hj
    rw [getElem_bytesAt, memcpy_zero, List.getElem_append]
    by_cases hsmall : j < isa.difftestRegSize
    · simp [hsmall, length_bytesAt, getElem_bytesAt]
    · -- behind the block stands what `difftest_getregs` has read
      have hbyte := hq j (by omega)
      rw [Nat.zero_add] at hbyte
      have hidx : isa.difftestRegSize + (j - isa.difftestRegSize) = j := by omega
      simp [hsmall, length_bytesAt, hbyte, hidx]

theorem difftestSetregs_run (hd : d.HasRegs regs) {s : S} (hlen : (regs s).length = gdbRegsSize)
    (isa : Isa) (tries : Nat) (r : Nat → Byte) (qemuR : IsaGdbRegs) :
    ∃ s', difftestSetregs d (tries + 1) isa r qemuR ⟨s, []⟩ = .ok ⟨⟩ ⟨s', []⟩ ∧
      regs s' = bytesAt r isa.difftestRegSize ++ (regs s).drop isa.difftestRegSize := by
  rcases gdbGetregs_run hd hlen tries qemuR with ⟨s₁, q, hget, hsame, hq⟩
  rcases gdbSetregs_run hd (s := s₁) (by rw [hsame, hlen]) tries
    (memcpy q 0 (bytesAt r isa.difftestRegSize)) with ⟨s₂, hset, hregs⟩
  refine ⟨s₂, ?_, hregs.trans (bytesAt_overwritten isa r hlen hq)⟩
  rw [difftestSetregs, bind_ok hget]
  exact bind_ok hset

theorem difftestGetregs_run (hd : d.HasRegs regs) {s : S} (hlen : (regs s).length = gdbRegsSize)
    (isa : Isa) (tries : Nat) (r : Nat → Byte) (qemuR : IsaGdbRegs) :
    ∃ s' r', difftestGetregs d (tries + 1) isa r qemuR ⟨s, []⟩ = .ok r' ⟨s', []⟩ ∧
      regs s' = regs s ∧ bytesAt r' isa.difftestRegSize = (regs s).take isa.difftestRegSize ∧
      ∀ j, isa.difftestRegSize ≤ j → r' j = r j := by
  rcases gdbGetregs_run hd hlen tries qemuR with ⟨s₁, q, hget, hsame, hq⟩
  refine ⟨s₁, memcpy r 0 (bytesAt q isa.difftestRegSize), bind_ok hget, hsame, ?_, fun j hj => ?_⟩
  · have hle := isa.difftestRegSize_le
    refine List.ext_getElem ?_ fun j hj hj' => ?_
    · rw [length_bytesAt, List.length_take]
      omega
    · rw [length_bytesAt] at hj
      have hbyte := hq j (by omega)
      rw [Nat.zero_add] at hbyte
      rw [getElem_bytesAt, memcpy_zero, if_pos hj, hbyte, List.getElem_take]
  · rw [memcpy_zero, if_neg (Nat.not_lt.2 hj)]

/-- Every server with a register file of 77 words, every block `r`, and whatever the memory that is
written held before. -/
theorem difftest_setregs_getregs (hd : d.HasRegs regs) {s : S}
    (hlen : (regs s).length = gdbRegsSize) (isa : Isa) (tries : Nat)
    (r memory : Nat → Byte) (qemuR qemuR' : IsaGdbRegs) :
    ∃ s₁ s₂ r', difftestSetregs d (tries + 1) isa r qemuR ⟨s, []⟩ = .ok ⟨⟩ ⟨s₁, []⟩ ∧
      difftestGetregs d (tries + 1) isa memory qemuR' ⟨s₁, []⟩ = .ok r' ⟨s₂, []⟩ ∧
      bytesAt r' isa.difftestRegSize = bytesAt r isa.difftestRegSize ∧
      (∀ j, isa.difftestRegSize ≤ j → r' j = memory j) ∧
      regs s₁ = bytesAt r isa.difftestRegSize ++ (regs s).drop isa.difftestRegSize ∧
      regs s₂ = regs s₁ := by
  rcases difftestSetregs_run hd hlen isa tries r qemuR with ⟨s₁, hset, hregs⟩
  -- the block replaces bytes of the file, whose length it leaves alone
  have hlen₁ : (regs s₁).length = gdbRegsSize := by
    have hle := isa.difftestRegSize_le
    rw [hregs, List.length_append, length_bytesAt, List.length_drop]
    omega
  rcases difftestGetregs_run hd hlen₁ isa tries memory qemuR' with
    ⟨s₂, r', hget, hsame, hblock, hframe⟩
  refine ⟨s₁, s₂, r', hset, hget, ?_, hframe, hregs, hsame⟩
  rw [hblock, hregs, List.take_left' (length_bytesAt _ _)]

end HasRegs

/-! ## A server -/

/-- The bytes of a text, as far as it consists of digits. -/
def unhex : List Byte → List Byte
  | a :: b :: t =>
      if isxdigit a && isxdigit b then (gdbDecodeHex a b).setWidth 8 :: unhex t else []
  | _ => []

theorem unhex_ofBytes (l rest : List Byte) : unhex (Hex.ofBytes l ++ chr '#' :: rest) = l := by
  induction l with
  | nil =>
      cases rest with
      | nil => rfl
      | cons c rest =>
          have hhash : isxdigit (chr '#') = false := by decide
          simp [unhex, hhash]
  | cons b l ih =>
      have hhigh := (digit_facts _ (Hex.div_lt b)).1
      have hlow := (digit_facts _ (Hex.mod_lt b)).1
      have hbyte : (b.setWidth 16).setWidth 8 = b := by simp
      rw [Hex.ofBytes_cons, List.cons_append, List.cons_append, unhex, hhigh, hlow,
        gdbDecodeHex_ofByte, hbyte, ih]
      rfl

/-- A server that knows `g` and `G` alone; its state is the register file. -/
def fileServer : Gdbserver (List Byte) where
  answer
    | _ :: c :: t, file =>
        if c = chr 'g' then (chr '+' :: sendPacket (Hex.ofBytes file), file)
        else if c = chr 'G' then (chr '+' :: sendPacket [chr 'O', chr 'K'], unhex t)
        else ([], file)
    | _, file => ([], file)

theorem fileServer_hasRegs : fileServer.HasRegs id where
  ack _ := ⟨rfl, rfl⟩
  get := by
    rintro file _ ⟨sumText, -, rfl⟩
    exact ⟨_, _, rfl, sendPacket_isPacket _, rfl⟩
  set := by
    rintro file _ bytes - ⟨sumText, -, rfl⟩
    exact ⟨_, _, rfl, sendPacket_isPacket _, unhex_ofBytes bytes sumText⟩

/-- A file that counts down, written over in front by a block that counts up. -/
theorem difftest_setregs_getregs_counting :
    let down := (List.range gdbRegsSize).map fun j => BitVec.ofNat 8 (255 - j)
    ∃ s₁ s₂ r', difftestSetregs fileServer 1 .riscv32 (BitVec.ofNat 8) (fun _ => 0) ⟨down, []⟩ =
        .ok ⟨⟩ ⟨s₁, []⟩ ∧
      difftestGetregs fileServer 1 .riscv32 (fun _ => 0) (fun _ => 0) ⟨s₁, []⟩ =
        .ok r' ⟨s₂, []⟩ ∧
      r' 0 = 0x00 ∧ r' 1 = 0x01 ∧ r' 18 = 0x12 ∧ r' 131 = 0x83 ∧ r' 132 = 0 ∧
      s₁.drop 132 = down.drop 132 := by
  intro down
  have hlen : down.length = gdbRegsSize := by simp [down]
  rcases difftest_setregs_getregs fileServer_hasRegs (s := down) hlen .riscv32 0 (BitVec.ofNat 8)
    (fun _ => 0) (fun _ => 0) (fun _ => 0) with ⟨s₁, s₂, r', hset, hget, hblock, hframe, hregs, -⟩
  have hbyte : ∀ j < 132, r' j = BitVec.ofNat 8 j := by
    intro j hj
    have hat := congrArg (fun l => l[j]?) hblock
    simpa [bytesAt, Isa.difftestRegSize, hj] using hat
  have hrest : s₁ = bytesAt (BitVec.ofNat 8) 132 ++ down.drop 132 := hregs
  refine ⟨s₁, s₂, r', hset, hget, hbyte 0 (by decide), hbyte 1 (by decide), hbyte 18 (by decide),
    hbyte 131 (by decide), hframe 132 (Nat.le_refl _), ?_⟩
  rw [hrest, List.drop_left' (length_bytesAt _ _)]

end Nemu
