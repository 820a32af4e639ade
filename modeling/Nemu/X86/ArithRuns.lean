import Nemu.X86.Accumulator

/-!
# Runs of the multiplications and divisions

What `exec_mul`, `exec_imul1`, `exec_div` and `exec_idiv` leave in the registers, in terms of the
host's operations.  A product is built up in one word at the widths 1 and 2 and in two words at
width 4; a division is one of 32 bits at the widths 1 and 2 and one of 64 bits at width 4.
-/

namespace Nemu

open LittleEndian StateRules

/-- A run that leaves the operands, the memory and the pair `hi`, `lo`, and nothing else that
counts. -/
structure LeavesPair (s : Machine) (w hi lo : Nat) (s' : Machine) : Prop where
  pair : PairSet s.cpu w hi lo s'.cpu
  decinfo : s'.decinfo = s.decinfo
  bus : s'.bus = s.bus

theorem printAsmTemplate1_spec (instr : List Char) {s s' : Machine} {w hi lo : Nat}
    (h : LeavesPair s w hi lo s') :
    Ensures (printAsmTemplate1 instr) s' fun _ s'' => LeavesPair s w hi lo s'' :=
  Ensures.step (getOperand_run s' .dest)
    (Ensures.of_ok (modify_run _ s') ⟨h.pair, h.decinfo, h.bus⟩)

/-! ## Multiplications -/

/-- The run leaves a number in the pair, as far as it fits. -/
def LeavesNumber (s : Machine) (w n : Nat) (s' : Machine) : Prop :=
  LeavesPair s w (n / 2 ^ (8 * w) % 2 ^ (8 * w)) (n % 2 ^ (8 * w)) s'

theorem LeavesNumber.pair_eq {s s' : Machine} {w n : Nat} (h : LeavesNumber s w n s')
    (hn : n < 2 ^ (8 * (2 * w))) : s'.cpu.pair w = n := by
  have hhalves : n / 2 ^ (8 * w) < 2 ^ (8 * w) := by
    rw [Nat.div_lt_iff_lt_mul (Nat.two_pow_pos _), ← Nat.pow_add]
    rwa [show 8 * w + 8 * w = 8 * (2 * w) by omega]
  rw [h.pair.pair, Nat.mod_eq_of_lt hhalves, Nat.div_add_mod']

/-- The number that the halves of a product are taken from. -/
def productOf (lo hi : Word → Word → Word) (w : Nat) (v a : Word) : Nat :=
  if w = 4 then (hi v a).toNat * 2 ^ 32 + (lo v a).toNat else (lo v a).toNat

theorem storeProduct_spec (lo hi : Word → Word → Word) {s s' : Machine} {dest : Operand} {w : Nat}
    (hw : ValidWidth w) (hdest : dest.width = w) (hcpu : s'.cpu = s.cpu)
    (hdecinfo : s'.decinfo = s.decinfo) (hbus : s'.bus = s.bus) (hs0 : s'.s0 = s.cpu.sub rEax w)
    (hs1 : s'.s1 = lo dest.val (s.cpu.sub rEax w)) :
    Ensures (storeProduct hi dest) s' fun _ s'' =>
      LeavesNumber s w (productOf lo hi w dest.val (s.cpu.sub rEax w)) s'' := by
  have htwo : ValidWidth 2 := Or.inr (Or.inl rfl)
  have hfour : ValidWidth 4 := Or.inr (Or.inr rfl)
  rw [storeProduct, hdest]
  rcases hw with rfl | rfl | rfl
  · refine Ensures.step (get_run _) (Ensures.of_ok (rtlSr_run rEax _ htwo _) ⟨?_, hdecinfo, hbus⟩)
    rw [hs1, hcpu]
    exact pairSet_ax s.cpu _
  · refine Ensures.step (get_run _) (Ensures.step (rtlSr_run rEax _ htwo _) ?_)
    refine Ensures.step (modify_run _ _) (Ensures.step (get_run _) ?_)
    refine Ensures.of_ok (rtlSr_run rEdx _ htwo _) ⟨?_, hdecinfo, hbus⟩
    have hset := pairSet_low_high s.cpu htwo (lo dest.val (s.cpu.sub rEax 2))
      (lo dest.val (s.cpu.sub rEax 2) >>> (16 : Word))
    simp only [hs1, hcpu]
    rwa [BitVec.ushiftRight_eq', BitVec.toNat_ushiftRight, Nat.shiftRight_eq_div_pow] at hset
  · refine Ensures.step (get_run _) (Ensures.step (modify_run _ _) ?_)
    refine Ensures.step (get_run _) (Ensures.step (rtlSr_run rEdx _ hfour _) ?_)
    refine Ensures.step (get_run _)
      (Ensures.of_ok (rtlSr_run rEax _ hfour _) ⟨?_, hdecinfo, hbus⟩)
    have hset := pairSet_high_low s.cpu hfour (lo dest.val (s.cpu.sub rEax 4))
      (hi dest.val (s.cpu.sub rEax 4))
    have hlt := (lo dest.val (s.cpu.sub rEax 4)).isLt
    have hhigh : productOf lo hi 4 dest.val (s.cpu.sub rEax 4) / 2 ^ (8 * 4) =
        (hi dest.val (s.cpu.sub rEax 4)).toNat := by
      rw [productOf, if_pos rfl]
      omega
    have hlow : productOf lo hi 4 dest.val (s.cpu.sub rEax 4) % 2 ^ (8 * 4) =
        (lo dest.val (s.cpu.sub rEax 4)).toNat % 2 ^ (8 * 4) := by
      rw [productOf, if_pos rfl]
      omega
    simp only [hs0, hs1, hcpu]
    rw [hhigh, hlow]
    exact hset

theorem execMultiply_spec (lo hi : Word → Word → Word) (instr : List Char) {s : Machine} {w : Nat}
    (hw : ValidWidth w) (hdest : (s.decinfo.operand .dest).width = w) :
    Ensures (execMultiply lo hi instr) s fun _ s' =>
      LeavesNumber s w (productOf lo hi w (s.decinfo.operand .dest).val (s.cpu.sub rEax w)) s' := by
  refine Ensures.step (getOperand_run s .dest) ?_
  rw [hdest]
  refine Ensures.step (rtlLr_image rEax hw s) (Ensures.step (modify_run _ _) ?_)
  refine Ensures.step (get_run _) (Ensures.step (modify_run _ _) ?_)
  exact Ensures.bind (storeProduct_spec lo hi (s := s) hw hdest rfl rfl rfl rfl rfl)
    fun _ s' h => printAsmTemplate1_spec instr h

/-! ## Dividends -/

theorem toNat_or_shift (lo hi : Word) (hlo : lo.toNat < 2 ^ 16) (hhi : hi.toNat < 2 ^ 16) :
    (lo ||| hi <<< (16 : Word)).toNat = hi.toNat * 2 ^ 16 + lo.toNat := by
  have hsixteen : (16 : Word).toNat = 16 := rfl
  rw [BitVec.shiftLeft_eq', hsixteen, BitVec.toNat_or, BitVec.toNat_shiftLeft, Nat.shiftLeft_eq,
    Nat.mod_eq_of_lt (by omega), Nat.or_comm, Nat.mul_comm, ← Nat.two_pow_add_eq_or_of_lt hlo]

theorem toNat_dividend64 (hi lo : Word) :
    (dividend64 hi lo).toNat = hi.toNat * 2 ^ 32 + lo.toNat := by
  have hhi := hi.isLt
  have hlo := lo.isLt
  rw [dividend64, BitVec.toNat_or, BitVec.toNat_shiftLeft, BitVec.toNat_setWidth,
    BitVec.toNat_setWidth, Nat.shiftLeft_eq, Nat.mod_eq_of_lt (by omega),
    Nat.mod_eq_of_lt (by omega), Nat.mod_eq_of_lt (by omega), Nat.mul_comm,
    ← Nat.two_pow_add_eq_or_of_lt hlo]

theorem sub_rEax_two (cpu : CPUState) : cpu.sub rEax 2 = BitVec.ofNat 32 (cpu.pair 1) := by
  rw [pair_one, BitVec.ofNat_toNat, BitVec.setWidth_eq]

/-- `s0` after the shift and the or. -/
theorem or_shift_eq (cpu : CPUState) :
    cpu.sub rEax 2 ||| cpu.sub rEdx 2 <<< (16 : Word) = BitVec.ofNat 32 (cpu.pair 2) := by
  have hlo : (cpu.sub rEax 2).toNat < 2 ^ 16 := low_lt cpu 2
  have hhi : (cpu.sub rEdx 2).toNat < 2 ^ 16 := high_lt cpu 2
  have hpair : cpu.pair 2 = (cpu.sub rEdx 2).toNat * 2 ^ 16 + (cpu.sub rEax 2).toNat := rfl
  apply BitVec.eq_of_toNat_eq
  rw [toNat_or_shift _ _ hlo hhi, hpair, BitVec.toNat_ofNat, Nat.mod_eq_of_lt (by omega)]

theorem dividend64_eq (cpu : CPUState) :
    dividend64 (cpu.sub rEdx 4) (cpu.sub rEax 4) = BitVec.ofNat 64 (cpu.pair 4) := by
  have hlo := (cpu.sub rEax 4).isLt
  have hhi := (cpu.sub rEdx 4).isLt
  have hpair : cpu.pair 4 = (cpu.sub rEdx 4).toNat * 2 ^ 32 + (cpu.sub rEax 4).toNat := rfl
  apply BitVec.eq_of_toNat_eq
  rw [toNat_dividend64, hpair, BitVec.toNat_ofNat, Nat.mod_eq_of_lt (by omega)]

/-! ## Divisions -/

section Divisions

variable {n : Nat} {signed : Bool} {a b : BitVec n}

theorem hostDivide_run (op : BitVec n → BitVec n → BitVec n) (h : hostTraps signed a b = false)
    (s : Machine) : hostDivide signed op a b s = .ok (op a b) s := by
  rw [hostDivide, if_neg (by rw [h]; decide)]
  rfl

theorem hostDivide_traps (op : BitVec n → BitVec n → BitVec n) (h : hostTraps signed a b = true)
    (s : Machine) : Fails (hostDivide signed op a b) s .divide := by
  rw [hostDivide, if_pos h]
  exact ⟨s, rfl⟩

end Divisions

section Narrow

variable {signed : Bool} (q r : Word → Word → Word) (q64 r64 : Word → Word → Word → Exec Word)
  {s : Machine} {dest : Operand} {w : Nat}

/-- A division of 32 bits. -/
theorem storeQuotient_narrow (hw : w = 1 ∨ w = 2) (hdest : dest.width = w)
    (hno : hostTraps signed (BitVec.ofNat 32 (s.cpu.pair w)) dest.val = false) :
    Ensures (storeQuotient (hostDivide signed q) (hostDivide signed r) q64 r64 dest) s fun _ s' =>
      LeavesPair s w ((r (BitVec.ofNat 32 (s.cpu.pair w)) dest.val).toNat % 2 ^ (8 * w))
        ((q (BitVec.ofNat 32 (s.cpu.pair w)) dest.val).toNat % 2 ^ (8 * w)) s' := by
  have hone : ValidWidth 1 := Or.inl rfl
  have htwo : ValidWidth 2 := Or.inr (Or.inl rfl)
  rw [storeQuotient, hdest]
  rcases hw with rfl | rfl
  · rw [← sub_rEax_two] at hno ⊢
    refine Ensures.step (rtlLr_image rEax htwo s) (Ensures.step (modify_run _ _) ?_)
    refine Ensures.step (get_run _) (Ensures.step (hostDivide_run q hno _) ?_)
    refine Ensures.step (modify_run _ _) (Ensures.step (get_run _) ?_)
    refine Ensures.step (rtlSr_run rEax _ hone _) (Ensures.step (get_run _) ?_)
    refine Ensures.step (hostDivide_run r hno _) (Ensures.step (modify_run _ _) ?_)
    refine Ensures.step (get_run _) (Ensures.of_ok (rtlSr_run rAh _ hone _) ⟨?_, rfl, rfl⟩)
    exact pairSet_low_high s.cpu hone _ _
  · rw [← or_shift_eq] at hno ⊢
    refine Ensures.step (rtlLr_image rEax htwo s) (Ensures.step (modify_run _ _) ?_)
    refine Ensures.step (rtlLr_image rEdx htwo _) (Ensures.step (modify_run _ _) ?_)
    refine Ensures.step (modify_run _ _) (Ensures.step (modify_run _ _) ?_)
    refine Ensures.step (get_run _) (Ensures.step (hostDivide_run q hno _) ?_)
    refine Ensures.step (modify_run _ _) (Ensures.step (get_run _) ?_)
    refine Ensures.step (rtlSr_run rEax _ htwo _) (Ensures.step (get_run _) ?_)
    refine Ensures.step (hostDivide_run r hno _) (Ensures.step (modify_run _ _) ?_)
    refine Ensures.step (get_run _) (Ensures.of_ok (rtlSr_run rEdx _ htwo _) ⟨?_, rfl, rfl⟩)
    exact pairSet_low_high s.cpu htwo _ _

theorem storeQuotient_narrow_traps (hw : w = 1 ∨ w = 2) (hdest : dest.width = w)
    (htraps : hostTraps signed (BitVec.ofNat 32 (s.cpu.pair w)) dest.val = true) :
    Fails (storeQuotient (hostDivide signed q) (hostDivide signed r) q64 r64 dest) s .divide := by
  have htwo : ValidWidth 2 := Or.inr (Or.inl rfl)
  rw [storeQuotient, hdest]
  rcases hw with rfl | rfl
  · rw [← sub_rEax_two] at htraps
    refine Fails.step (rtlLr_image rEax htwo s) (Fails.step (modify_run _ _) ?_)
    exact Fails.step (get_run _) (Fails.bind (hostDivide_traps q htraps _) _)
  · rw [← or_shift_eq] at htraps
    refine Fails.step (rtlLr_image rEax htwo s) (Fails.step (modify_run _ _) ?_)
    refine Fails.step (rtlLr_image rEdx htwo _) (Fails.step (modify_run _ _) ?_)
    refine Fails.step (modify_run _ _) (Fails.step (modify_run _ _) ?_)
    exact Fails.step (get_run _) (Fails.bind (hostDivide_traps q htraps _) _)

end Narrow

section Wide

variable {signed : Bool} (q r : Word → Word → Exec Word) (q64 r64 : BitVec 64 → BitVec 64 → BitVec 64)
  {s : Machine} {dest : Operand}

/-- The divisor of a division of 64 bits. -/
def divisor64 (signed : Bool) (v : Word) : BitVec 64 :=
  if signed then v.signExtend 64 else v.setWidth 64

theorem rtlDivide64_run (op : BitVec 64 → BitVec 64 → BitVec 64) {hi lo v : Word}
    (h : hostTraps signed (dividend64 hi lo) (divisor64 signed v) = false) (s : Machine) :
    rtlDivide64 signed op hi lo v s =
      .ok ((op (dividend64 hi lo) (divisor64 signed v)).setWidth 32) s :=
  bind_ok (hostDivide_run op h s)

/-- A division of 64 bits. -/
theorem storeQuotient_wide (hdest : dest.width = 4)
    (hno : hostTraps signed (BitVec.ofNat 64 (s.cpu.pair 4)) (divisor64 signed dest.val) = false) :
    Ensures (storeQuotient q r (rtlDivide64 signed q64) (rtlDivide64 signed r64) dest) s
      fun _ s' =>
        LeavesPair s 4
          ((r64 (BitVec.ofNat 64 (s.cpu.pair 4)) (divisor64 signed dest.val)).toNat % 2 ^ 32)
          ((q64 (BitVec.ofNat 64 (s.cpu.pair 4)) (divisor64 signed dest.val)).toNat % 2 ^ 32)
          s' := by
  have hfour : ValidWidth 4 := Or.inr (Or.inr rfl)
  rw [storeQuotient, hdest]
  rw [← dividend64_eq] at hno ⊢
  refine Ensures.step (rtlLr_image rEax hfour s) (Ensures.step (modify_run _ _) ?_)
  refine Ensures.step (rtlLr_image rEdx hfour _) (Ensures.step (modify_run _ _) ?_)
  refine Ensures.step (get_run _) (Ensures.step (get_run _) ?_)
  refine Ensures.step (rtlDivide64_run q64 hno _) (Ensures.step (modify_run _ _) ?_)
  refine Ensures.step (get_run _) (Ensures.step (get_run _) ?_)
  refine Ensures.step (rtlDivide64_run r64 hno _) (Ensures.of_ok (modify_run _ _) ⟨?_, rfl, rfl⟩)
  have hset := pairSet_low_high s.cpu hfour
    ((q64 (dividend64 (s.cpu.sub rEdx 4) (s.cpu.sub rEax 4)) (divisor64 signed dest.val)).setWidth 32)
    ((r64 (dividend64 (s.cpu.sub rEdx 4) (s.cpu.sub rEax 4)) (divisor64 signed dest.val)).setWidth 32)
  rwa [BitVec.toNat_setWidth, BitVec.toNat_setWidth, Nat.mod_mod, Nat.mod_mod] at hset

theorem storeQuotient_wide_traps (hdest : dest.width = 4)
    (htraps : hostTraps signed (BitVec.ofNat 64 (s.cpu.pair 4)) (divisor64 signed dest.val) = true) :
    Fails (storeQuotient q r (rtlDivide64 signed q64) (rtlDivide64 signed r64) dest) s .divide := by
  have hfour : ValidWidth 4 := Or.inr (Or.inr rfl)
  rw [storeQuotient, hdest]
  rw [← dividend64_eq] at htraps
  refine Fails.step (rtlLr_image rEax hfour s) (Fails.step (modify_run _ _) ?_)
  refine Fails.step (rtlLr_image rEdx hfour _) (Fails.step (modify_run _ _) ?_)
  refine Fails.step (get_run _) (Fails.step (get_run _) ?_)
  exact Fails.bind (Fails.bind (hostDivide_traps q64 htraps _) _) _

end Wide

section Whole

variable {q r : Word → Word → Exec Word} {q64 r64 : Word → Word → Word → Exec Word} {s : Machine}
  (instr : List Char)

theorem execDivide_spec {w hi lo : Nat}
    (h : Ensures (storeQuotient q r q64 r64 (s.decinfo.operand .dest)) s fun _ s' =>
      LeavesPair s w hi lo s') :
    Ensures (execDivide q r q64 r64 instr) s fun _ s' => LeavesPair s w hi lo s' :=
  Ensures.step (getOperand_run s .dest) (h.bind fun _ _ h' => printAsmTemplate1_spec instr h')

theorem execDivide_fails
    (h : Fails (storeQuotient q r q64 r64 (s.decinfo.operand .dest)) s .divide) :
    Fails (execDivide q r q64 r64 instr) s .divide :=
  Fails.step (getOperand_run s .dest) (h.bind _)

end Whole

end Nemu
