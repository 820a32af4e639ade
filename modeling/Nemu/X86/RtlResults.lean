import Nemu.X86.DivideFault
import Nemu.X86.RegUnion
import Nemu.X86.Rtl

/-!
# What the instructions of RTL compute

The operations of `c_op.h`, the divisions of 64 bits and the comparisons of `relop.c`, as results on
numbers.  A quotient that is out of the host's range is one that there is not.
-/

namespace Nemu

open StateRules LittleEndian

/-! ## What the operations are -/

/-- A quotient or a remainder, if the quotient is below the bound. -/
def divided (bound : Int) (op : Int → Int → Int) (D d : Int) : Option Word :=
  if d = 0 ∨ bound ≤ D.tdiv d then none else some (BitVec.ofInt 32 (op D d))

/-- A shift by less than 32, as the number `f` of it. -/
def shifted (host : ArithLogic → Word → Word → Word) (name : ArithLogic) (f : Nat → Int)
    (a b : Word) : Word :=
  if b.toNat < 32 then BitVec.ofInt 32 (f b.toNat) else host name a b

def ArithLogic.result (host : ArithLogic → Word → Word → Word) (name : ArithLogic) (a b : Word) :
    Option Word :=
  match name with
  | .add => some (BitVec.ofInt 32 (a.toInt + b.toInt))
  | .sub => some (BitVec.ofInt 32 (a.toInt - b.toInt))
  | .and => some (a &&& b)
  | .or => some (a ||| b)
  | .xor => some (a ^^^ b)
  | .shl => some (shifted host .shl (fun n => a.toInt * 2 ^ n) a b)
  | .shr => some (shifted host .shr (fun n => a.toNat / 2 ^ n) a b)
  | .sar => some (shifted host .sar (fun n => a.toInt / 2 ^ n) a b)
  | .mulLo => some (BitVec.ofInt 32 (a.toNat * b.toNat))
  | .mulHi => some (BitVec.ofInt 32 (a.toNat * b.toNat / 2 ^ 32))
  | .imulLo => some (BitVec.ofInt 32 (a.toInt * b.toInt))
  | .imulHi => some (BitVec.ofInt 32 (a.toInt * b.toInt / 2 ^ 32))
  | .divQ => divided (2 ^ 32) Int.tdiv a.toNat b.toNat
  | .divR => divided (2 ^ 32) Int.tmod a.toNat b.toNat
  | .idivQ => divided (2 ^ 31) Int.tdiv a.toInt b.toInt
  | .idivR => divided (2 ^ 31) Int.tmod a.toInt b.toInt

def Div64.result (name : Div64) (hi lo b : Word) : Option Word :=
  match name with
  | .q => divided (2 ^ 64) Int.tdiv (hi.toNat * 2 ^ 32 + lo.toNat) b.toNat
  | .r => divided (2 ^ 64) Int.tmod (hi.toNat * 2 ^ 32 + lo.toNat) b.toNat
  | .iq => divided (2 ^ 63) Int.tdiv (hi.toInt * 2 ^ 32 + lo.toNat) b.toInt
  | .ir => divided (2 ^ 63) Int.tmod (hi.toInt * 2 ^ 32 + lo.toNat) b.toInt

/-- The bits of a code: less without a sign, less with one, equal, and the other way round. -/
def comparison (unsign sign equal invert : Bool) (a b : Word) : Bool :=
  (unsign && decide (a.toNat < b.toNat) || sign && decide (a.toInt < b.toInt) ||
    equal && decide (a = b)) ^^ invert

def compared (relop a b : Word) : Option Bool :=
  if relop.toNat < 12 then
    some (comparison (relop.getLsbD 3) (relop.getLsbD 2) (relop.getLsbD 1) (relop.getLsbD 0) a b)
  else none

/-- The register that `r` names a part of in a width, and the first byte of the part. -/
def part (r : Word) (width : Nat) : Option (Fin 8 × Nat) :=
  if h : r.toNat < 8 then
    match width with
    | 4 | 2 => some (⟨r.toNat, h⟩, 0)
    | 1 => some (⟨r.toNat % 4, mod_four_lt_eight ⟨r.toNat, h⟩⟩, r.toNat / 4)
    | _ => none
  else none

/-! ## Divisions -/

/-- A value of a computation on the machine, or a fault; nothing else changes. -/
def Computes {α : Type} (x : Exec α) (e : Fault) (v : Option α) : Prop :=
  ∀ s, x s = match v with
    | some a => .ok a s
    | none => .error e s

theorem computes_pure {α : Type} (e : Fault) {a a' : α} (h : a = a') :
    Computes (pure a) e (some a') := by
  intro s
  rw [h]
  rfl

theorem setWidth_eq_ofInt {n : Nat} (hn : 32 ≤ n) (x : BitVec n) :
    x.setWidth 32 = BitVec.ofInt 32 x.toInt := by
  apply BitVec.eq_of_toInt_eq
  rw [BitVec.toInt_ofInt, BitVec.toInt_setWidth, BitVec.toInt_eq_toNat_bmod,
    Int.bmod_bmod_of_dvd (Nat.pow_dvd_pow 2 hn)]

section Host

variable {n : Nat} {x y : BitVec n}

/-- No natural quotient is out of range. -/
theorem traps_iff_unsigned :
    hostTraps false x y = true ↔ (y.toNat : Int) = 0 ∨ 2 ^ n ≤ (x.toNat : Int).tdiv y.toNat := by
  have hquot : (x.toNat : Int).tdiv y.toNat < 2 ^ n := by
    have hle : x.toNat / y.toNat ≤ x.toNat := Nat.div_le_self _ _
    have hlt : x.toNat / y.toNat < 2 ^ n := Nat.lt_of_le_of_lt hle x.isLt
    rw [← Int.ofNat_tdiv]
    exact_mod_cast hlt
  rw [hostTraps_unsigned_iff, or_iff_left (not_le.2 hquot), Nat.cast_eq_zero]
  exact BitVec.toNat_eq

theorem traps_iff_signed (hn : 1 < n) :
    hostTraps true x y = true ↔ y.toInt = 0 ∨ 2 ^ (n - 1) ≤ x.toInt.tdiv y.toInt := by
  have hone : (-1 : BitVec n).toInt = -1 := by
    rw [show (-1 : BitVec n) = BitVec.allOnes n from BitVec.neg_one_eq_allOnes,
      BitVec.toInt_allOnes, if_pos (by omega)]
  rw [hostTraps_signed_iff]
  constructor
  · rintro (rfl | ⟨rfl, rfl⟩)
    · exact .inl BitVec.toInt_zero
    · refine .inr ?_
      rw [hone, Int.tdiv_neg, Int.tdiv_one, BitVec.toInt_intMin_of_pos (by omega), Int.neg_neg]
  · intro h
    by_contra hno
    have hne : y ≠ 0 := fun h => hno (.inl h)
    have hfits : x ≠ BitVec.intMin n ∨ y ≠ -1#n :=
      Classical.not_and_iff_not_or_not.1 fun h => hno (.inr h)
    rcases h with hzero | hbig
    · exact hne (BitVec.eq_of_toInt_eq (hzero.trans BitVec.toInt_zero.symm))
    · have hlt := BitVec.toInt_lt (x := x.sdiv y)
      rw [BitVec.toInt_sdiv_of_ne_or_ne x y hfits] at hlt
      exact absurd hbig (not_le.2 hlt)

/-- The host divides as numbers are divided, as far as the word goes that is kept. -/
theorem hostDivide_computes {signed : Bool} {op : BitVec n → BitVec n → BitVec n}
    {f : Int → Int → Int} {bound D d : Int}
    (htraps : hostTraps signed x y = true ↔ d = 0 ∨ bound ≤ D.tdiv d)
    (hop : hostTraps signed x y = false → (op x y).setWidth 32 = BitVec.ofInt 32 (f D d)) :
    Computes (hostDivide signed op x y >>= fun z => pure (z.setWidth 32)) .divide
      (divided bound f D d) := by
  intro s
  cases htrap : hostTraps signed x y with
  | true =>
      rw [divided, if_pos (htraps.1 htrap), hostDivide, if_pos htrap]
      rfl
  | false =>
      have hno : ¬ (d = 0 ∨ bound ≤ D.tdiv d) := by
        rw [← htraps, htrap]
        exact Bool.false_ne_true
      rw [divided, if_neg hno, bind_ok (hostDivide_run op htrap s)]
      exact congrArg (EStateM.Result.ok · s) (hop htrap)

theorem udiv_computes :
    Computes (hostDivide false BitVec.udiv x y >>= fun z => pure (z.setWidth 32)) .divide
      (divided (2 ^ n) Int.tdiv x.toNat y.toNat) := by
  refine hostDivide_computes traps_iff_unsigned fun _ => ?_
  rw [← Int.ofNat_tdiv, BitVec.ofInt_natCast, ← BitVec.ofNat_toNat]
  exact congrArg (BitVec.ofNat 32) (BitVec.toNat_udiv ..)

theorem umod_computes :
    Computes (hostDivide false BitVec.umod x y >>= fun z => pure (z.setWidth 32)) .divide
      (divided (2 ^ n) Int.tmod x.toNat y.toNat) := by
  refine hostDivide_computes traps_iff_unsigned fun _ => ?_
  rw [← Int.ofNat_tmod, BitVec.ofInt_natCast, ← BitVec.ofNat_toNat]
  exact congrArg (BitVec.ofNat 32) (BitVec.toNat_umod ..)

theorem sdiv_computes (hn : 32 ≤ n) :
    Computes (hostDivide true BitVec.sdiv x y >>= fun z => pure (z.setWidth 32)) .divide
      (divided (2 ^ (n - 1)) Int.tdiv x.toInt y.toInt) := by
  refine hostDivide_computes (traps_iff_signed (by omega)) fun htrap => ?_
  have hfits : x ≠ BitVec.intMin n ∨ y ≠ -1#n := by
    apply Classical.not_and_iff_not_or_not.1
    intro h
    rw [(hostTraps_signed_iff).2 (.inr h)] at htrap
    cases htrap
  rw [setWidth_eq_ofInt hn, BitVec.toInt_sdiv_of_ne_or_ne x y hfits]

theorem srem_computes (hn : 32 ≤ n) :
    Computes (hostDivide true BitVec.srem x y >>= fun z => pure (z.setWidth 32)) .divide
      (divided (2 ^ (n - 1)) Int.tmod x.toInt y.toInt) := by
  refine hostDivide_computes (traps_iff_signed (by omega)) fun _ => ?_
  rw [setWidth_eq_ofInt hn, BitVec.toInt_srem]

end Host

/-- A division of 32 bits keeps the whole result. -/
theorem Computes.of_setWidth {x : Exec Word} {v : Option Word}
    (h : Computes (x >>= fun z => pure (z.setWidth 32)) .divide v) : Computes x .divide v := by
  have hx : (x >>= fun z => pure (z.setWidth 32)) = x := by
    simp only [BitVec.setWidth_eq, bind_pure]
  rwa [hx] at h

theorem toInt_dividend64 (hi lo : Word) :
    (dividend64 hi lo).toInt = hi.toInt * 2 ^ 32 + lo.toNat := by
  have hhi := hi.isLt
  have hlo := lo.isLt
  rw [BitVec.toInt_eq_toNat_cond, BitVec.toInt_eq_toNat_cond, toNat_dividend64]
  -- the sign bit of the dividend is that of its high word
  split_ifs <;> omega

theorem Div64.op_computes (name : Div64) (hi lo b : Word) :
    Computes (name.op hi lo b) .divide (name.result hi lo b) := by
  have hnat : ((dividend64 hi lo).toNat : Int) = hi.toNat * 2 ^ 32 + lo.toNat := by
    rw [toNat_dividend64]
    push_cast
    rfl
  have hdivisor : ((b.setWidth 64).toNat : Int) = b.toNat := by
    rw [BitVec.toNat_setWidth_of_le (by decide)]
  have hsigned : (b.signExtend 64).toInt = b.toInt := BitVec.toInt_signExtend_of_le (by decide)
  cases name with
  | q =>
      rw [Div64.result, ← hnat, ← hdivisor]
      exact udiv_computes
  | r =>
      rw [Div64.result, ← hnat, ← hdivisor]
      exact umod_computes
  | iq =>
      rw [Div64.result, ← toInt_dividend64, ← hsigned]
      exact sdiv_computes (by decide)
  | ir =>
      rw [Div64.result, ← toInt_dividend64, ← hsigned]
      exact srem_computes (by decide)

/-! ## c_op.h -/

theorem shift_eq (host : ArithLogic → Word → Word → Word) (name : ArithLogic)
    {op : Word → Nat → Word} {f : Nat → Int} {a b : Word}
    (h : ∀ n < 32, op a n = BitVec.ofInt 32 (f n)) :
    name.shift host op a b = shifted host name f a b := by
  unfold ArithLogic.shift shifted
  split
  case isTrue hb => exact h _ hb
  case isFalse => rfl

theorem ArithLogic.cOp_computes (host : ArithLogic → Word → Word → Word) (name : ArithLogic)
    (a b : Word) : Computes (name.cOp host a b) .divide (name.result host a b) := by
  cases name with
  | add =>
      apply computes_pure
      rw [BitVec.ofInt_add, BitVec.ofInt_toInt, BitVec.ofInt_toInt]
  | sub =>
      apply computes_pure
      rw [Int.sub_eq_add_neg, BitVec.ofInt_add, BitVec.ofInt_neg, BitVec.ofInt_toInt,
        BitVec.ofInt_toInt, BitVec.sub_eq_add_neg]
  | and => exact computes_pure _ rfl
  | or => exact computes_pure _ rfl
  | xor => exact computes_pure _ rfl
  | shl =>
      refine computes_pure _ (shift_eq host .shl fun n _ => ?_)
      have hpow : BitVec.twoPow 32 n = BitVec.ofInt 32 (2 ^ n) := by
        apply BitVec.eq_of_toNat_eq
        rw [BitVec.toNat_twoPow]
        exact (BitVec.toNat_ofNat (2 ^ n) 32).symm
      rw [BitVec.ofInt_mul, BitVec.ofInt_toInt, ← hpow, BitVec.shiftLeft_eq_mul_twoPow]
  | shr =>
      refine computes_pure _ (shift_eq host .shr fun n _ => ?_)
      have hdiv : ((a >>> n).toNat : Int) = a.toNat / 2 ^ n := by
        rw [BitVec.toNat_ushiftRight, Nat.shiftRight_eq_div_pow]
        push_cast
        rfl
      rw [← hdiv, BitVec.ofInt_natCast, BitVec.ofNat_toNat, BitVec.setWidth_eq]
  | sar =>
      refine computes_pure _ (shift_eq host .sar fun n _ => ?_)
      have hdiv : (a.sshiftRight n).toInt = a.toInt / 2 ^ n := by
        rw [BitVec.toInt_sshiftRight, Int.shiftRight_eq_div_pow]
        push_cast
        rfl
      rw [← hdiv, BitVec.ofInt_toInt]
  | mulLo =>
      apply computes_pure
      apply BitVec.eq_of_toNat_eq
      rw [← Int.natCast_mul, BitVec.ofInt_natCast, toNat_cMulLo, BitVec.toNat_ofNat]
  | mulHi =>
      apply computes_pure
      have hdiv : ((cMulHi a b).toNat : Int) = a.toNat * b.toNat / 2 ^ 32 := by
        rw [toNat_cMulHi]
        push_cast
        rfl
      rw [← hdiv, BitVec.ofInt_natCast, BitVec.ofNat_toNat, BitVec.setWidth_eq]
  | imulLo =>
      apply computes_pure
      rw [BitVec.ofInt_mul, BitVec.ofInt_toInt, BitVec.ofInt_toInt]
      rfl
  | imulHi =>
      apply computes_pure
      rw [cImulHi, setWidth_eq_ofInt (by decide), BitVec.toInt_sshiftRight, toInt_mul_signExtend,
        Int.shiftRight_eq_div_pow]
      rfl
  | divQ => exact udiv_computes.of_setWidth
  | divR => exact umod_computes.of_setWidth
  | idivQ => exact (sdiv_computes (by decide)).of_setWidth
  | idivR => exact (srem_computes (by decide)).of_setWidth

/-! ## relop.c -/

theorem compared_of {relop a b : Word} {holds : Bool} (hvalid : relop.toNat < 12)
    (h : comparison (relop.getLsbD 3) (relop.getLsbD 2) (relop.getLsbD 1) (relop.getLsbD 0) a b =
      holds) : compared relop a b = some holds := by
  rw [compared, if_pos hvalid, h]

theorem sle_eq_comparison (a b : Word) : comparison false true true false a b = a.sle b := by
  rw [BitVec.sle_eq_slt_or_eq, BitVec.slt_eq_decide]
  simp [comparison, Bool.beq_eq_decide_eq]

theorem ule_eq_comparison (a b : Word) : comparison true false true false a b = a.ule b := by
  rw [BitVec.ule_eq_decide]
  simp [comparison, Nat.le_iff_lt_or_eq, BitVec.toNat_inj]

theorem comparison_invert (unsign sign equal : Bool) (a b : Word) :
    comparison unsign sign equal true a b = !comparison unsign sign equal false a b := by
  simp [comparison]

/-- Every case of the `switch` is what the bits of its code say. -/
theorem relopCases_compared :
    ∀ p ∈ relopCases, ∀ a b, compared p.1 a b = some (p.2 a b) := by
  have hslt : ∀ a b : Word, comparison false true false false a b = a.slt b := by
    intro a b
    simp [comparison, BitVec.slt_eq_decide]
  have hult : ∀ a b : Word, comparison true false false false a b = a.ult b := by
    intro a b
    simp [comparison, BitVec.ult_eq_decide]
  have heq : ∀ a b : Word, comparison false false true false a b = (a == b) := by
    intro a b
    simp [comparison, beq_eq_decide]
  simp only [relopCases, List.forall_mem_cons]
  refine ⟨?_, ?_, ?_, ?_, ?_, ?_, ?_, ?_, ?_, ?_, ?_, ?_, fun _ h => by cases h⟩
  all_goals
    intro a b
    apply compared_of (by decide)
  · rfl
  · rfl
  · exact heq a b
  · exact (comparison_invert false false true a b).trans (congrArg _ (heq a b))
  · exact hslt a b
  · exact sle_eq_comparison a b
  · refine (comparison_invert false true true a b).trans ?_
    rw [sle_eq_comparison, BitVec.sle_eq_not_slt, Bool.not_not]
  · refine (comparison_invert false true false a b).trans ?_
    rw [hslt, BitVec.sle_eq_not_slt]
  · exact hult a b
  · exact ule_eq_comparison a b
  · refine (comparison_invert true false true a b).trans ?_
    rw [ule_eq_comparison, BitVec.ule_eq_not_ult, Bool.not_not]
  · refine (comparison_invert true false false a b).trans ?_
    rw [hult, BitVec.ule_eq_not_ult]

theorem interpretRelop_computes (relop a b : Word) :
    Computes (interpretRelop relop a b) .abort (compared relop a b) := by
  intro s
  unfold interpretRelop
  cases hcase : relopCases.lookup relop with
  | some holds =>
      rcases List.lookup_eq_some_iff.1 hcase with ⟨l, l', hcases, -⟩
      have hmem : (relop, holds) ∈ relopCases := by
        rw [hcases]
        exact List.mem_append_right _ (List.mem_cons_self ..)
      rw [relopCases_compared _ hmem]
      rfl
  | none =>
      have hinvalid : ¬ relop.toNat < 12 := by
        intro hvalid
        have hlisted : ∀ k < 12, (relopCases.lookup (BitVec.ofNat 32 k)).isSome = true := by
          decide
        have hsome := hlisted _ hvalid
        rw [BitVec.ofNat_toNat, BitVec.setWidth_eq, hcase] at hsome
        cases hsome
      rw [compared, if_neg hinvalid]
      rfl

/-! ## isa/rtl.h -/

theorem load_byteOf_four (w : Word) : load (byteOf w) 0 4 = w := by
  apply eq_of_byteOf
  intro k hk
  rw [byteOf_load _ _ _ _ hk, if_pos hk, Nat.zero_add]

theorem load_byteOf_two (w : Word) : load (byteOf w) 0 2 = (w.setWidth 16).setWidth 32 := by
  apply BitVec.eq_of_getLsbD_eq
  intro j hj
  have hmod : j % 8 < 8 := Nat.mod_lt _ (by decide)
  have hidx : 8 * (0 + j / 8) + j % 8 = j := by omega
  rw [getLsbD_load, BitVec.getLsbD_setWidth, BitVec.getLsbD_setWidth, getLsbD_byteOf, hidx,
    decide_eq_true hmod, Bool.true_and, Bool.and_assoc]

theorem insert_four (w v : Word) : insert w 0 4 v = v := by
  have hset := congrArg (fun cpu => cpu.gpr 0) (setGpr32_eq ⟨fun _ => w, 0⟩ 0 v)
  exact hset.symm

theorem checkRegIndex_of_lt {r : Word} (hr : r.toNat < 8) (s : Machine) :
    checkRegIndex r s = .ok ⟨r.toNat, hr⟩ s := dif_pos hr

theorem checkRegIndex_of_le {r : Word} (hr : ¬ r.toNat < 8) (s : Machine) :
    checkRegIndex r s = .error .abort s := dif_neg hr

theorem part_of_le {r : Word} (hr : ¬ r.toNat < 8) (width : Nat) : part r width = none :=
  dif_neg hr

theorem part_eq_none {width : Nat} (h4 : width ≠ 4) (h1 : width ≠ 1) (h2 : width ≠ 2) (r : Word) :
    part r width = none := by
  unfold part
  split
  · split
    · exact absurd rfl h4
    · exact absurd rfl h2
    · exact absurd rfl h1
    · rfl
  · rfl

/-- `rtl_lr` reads the part that its arguments name. -/
theorem rtlLr_part (r : Word) (width : Nat) (s : Machine) :
    rtlLr r width s = match part r width with
      | some (i, k) => .ok (load (byteOf (s.cpu.gpr32 i)) k width) s
      | none => .error .abort s := by
  unfold rtlLr
  rw [bind_ok (get_run s)]
  by_cases hr : r.toNat < 8
  · split
    · rw [bind_ok (checkRegIndex_of_lt hr s), part, dif_pos hr]
      exact congrArg (EStateM.Result.ok · s) (load_byteOf_four _).symm
    · rw [bind_ok (checkRegIndex_of_lt hr s), part, dif_pos hr]
      exact congrArg (EStateM.Result.ok · s) (load_one _ _).symm
    · rw [bind_ok (checkRegIndex_of_lt hr s), part, dif_pos hr]
      exact congrArg (EStateM.Result.ok · s) (load_byteOf_two _).symm
    · rename_i h4 h1 h2
      rw [part_eq_none h4 h1 h2]
      rfl
  · rw [part_of_le hr]
    split
    · exact bind_error (checkRegIndex_of_le hr s)
    · exact bind_error (checkRegIndex_of_le hr s)
    · exact bind_error (checkRegIndex_of_le hr s)
    · rfl

/-- `rtl_sr` replaces it. -/
theorem rtlSr_part (r v : Word) (width : Nat) (s : Machine) :
    rtlSr r v width s = match part r width with
      | some (i, k) => .ok ⟨⟩ (s.rtlSet (.cell (.gpr i)) (insert (s.cpu.gpr32 i) k width v))
      | none => .error .abort s := by
  unfold rtlSr
  by_cases hr : r.toNat < 8
  · split
    · rw [bind_ok (checkRegIndex_of_lt hr s), part, dif_pos hr]
      exact congrArg (fun w => EStateM.Result.ok PUnit.unit (s.rtlSet (.cell (.gpr ⟨r.toNat, hr⟩)) w))
        (insert_four (s.cpu.gpr32 ⟨r.toNat, hr⟩) v).symm
    · rw [bind_ok (checkRegIndex_of_lt hr s), part, dif_pos hr]
      rfl
    · rw [bind_ok (checkRegIndex_of_lt hr s), part, dif_pos hr]
      rfl
    · rename_i h4 h1 h2
      rw [part_eq_none h4 h1 h2]
      rfl
  · rw [part_of_le hr]
    split
    · exact bind_error (checkRegIndex_of_le hr s)
    · exact bind_error (checkRegIndex_of_le hr s)
    · exact bind_error (checkRegIndex_of_le hr s)
    · rfl

end Nemu
