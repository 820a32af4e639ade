import Nemu.X86.RegViews
import Nemu.Expr.TwoEvals

/-!
# The flag of a caller

For the callers of `expr`, `bool` is `uint8_t`; in `expr.c` it is `int`.  Through the pointer to a
flag of one byte, `expr` reads and writes that byte and the three bytes behind it.

* `flagOnly_iff`: a caller's memory in which every call keeps to the flag has zeros there;
* `valueAndFlag_dirty`: with anything else there, a call is one in which every register is 0.
-/

namespace Nemu

open LittleEndian StateRules

/-! ## Calls -/

/-- `expr(e, &flag)` for a flag at `flag` of the caller's memory: the value and the memory behind
it, or nothing if the call does not return. -/
def exprAt (cpu : CPUState) (e : List Char) (buf : TokenBuf) (bus : Bus) (mem : Nat → Byte)
    (flag : Nat) : Option (Word × (Nat → Byte)) :=
  match expr cpu e ⟨buf, ⟨load mem flag 4, bus, []⟩⟩ with
  | .ok v s => some (v, store mem flag 4 s.eval.success)
  | .error _ _ => none

/-- What a caller sees of a call: the value and the flag. -/
def valueAndFlag (cpu : CPUState) (e : List Char) (buf : TokenBuf) (bus : Bus) (mem : Nat → Byte)
    (flag : Nat) : Option (Word × Byte) :=
  (exprAt cpu e buf bus mem flag).map fun r => (r.1, r.2 flag)

/-- The memory with zeros behind the flag, as far as `expr` reads. -/
def clearBehind (mem : Nat → Byte) (flag : Nat) : Nat → Byte :=
  fun i => if flag < i ∧ i < flag + 4 then 0 else mem i

def BehindClear (mem : Nat → Byte) (flag : Nat) : Prop := ∀ k, 1 ≤ k → k < 4 → mem (flag + k) = 0

/-- The call writes nothing but the flag, and its value and flag are those that zeros behind the
flag give. -/
structure FlagOnly (cpu : CPUState) (e : List Char) (buf : TokenBuf) (bus : Bus)
    (mem : Nat → Byte) (flag : Nat) : Prop where
  frame : ∀ v mem', exprAt cpu e buf bus mem flag = some (v, mem') → ∀ i, i ≠ flag → mem' i = mem i
  independent : valueAndFlag cpu e buf bus mem flag =
    valueAndFlag cpu e buf bus (clearBehind mem flag) flag

/-! ## The word of a flag -/

theorem byteOf_one : ∀ k, 1 ≤ k → k < 4 → byteOf (1 : Word) k = 0 := by decide

theorem byteOf_zero : ∀ k, k < 4 → byteOf (0 : Word) k = 0 := by decide

section Word

variable {mem : Nat → Byte} {flag : Nat}

theorem load_flag_eq_one : load mem flag 4 = 1 ↔ mem flag = 1 ∧ BehindClear mem flag := by
  constructor
  · intro h
    have hbyte : ∀ k, k < 4 → mem (flag + k) = byteOf (1 : Word) k := by
      intro k hk
      rw [← h, byteOf_load _ _ _ _ hk, if_pos hk]
    exact ⟨hbyte 0 (by decide), fun k hk hk' => (hbyte k hk').trans (byteOf_one k hk hk')⟩
  · rintro ⟨hflag, hbehind⟩
    refine eq_of_byteOf fun k hk => ?_
    rw [byteOf_load _ _ _ _ hk, if_pos hk]
    rcases Nat.eq_zero_or_pos k with rfl | hpos
    · rw [Nat.add_zero, hflag]
      decide
    · rw [hbehind k hpos hk, byteOf_one k hpos hk]

theorem load_clearBehind (h : mem flag = 1) : load (clearBehind mem flag) flag 4 = 1 := by
  refine load_flag_eq_one.2 ⟨?_, fun k hk hk' => ?_⟩
  · rw [clearBehind, if_neg (by omega)]
    exact h
  · rw [clearBehind, if_pos (by omega)]

theorem store_flag (w : Word) : store mem flag 4 w flag = byteOf w 0 := by
  rw [store_apply, if_pos (by omega), Nat.sub_self]

theorem byteOf_load_flag (mem : Nat → Byte) (flag : Nat) :
    byteOf (load mem flag 4) 0 = mem flag := by
  rw [byteOf_load _ _ _ _ (by decide), if_pos (by decide), Nat.add_zero]

/-- The word read decides on value and flag. -/
theorem valueAndFlag_eq (cpu : CPUState) (e : List Char) (buf : TokenBuf) (bus : Bus) :
    valueAndFlag cpu e buf bus mem flag =
      match expr cpu e ⟨buf, ⟨load mem flag 4, bus, []⟩⟩ with
      | .ok v s => some (v, byteOf s.eval.success 0)
      | .error _ _ => none := by
  unfold valueAndFlag exprAt
  cases expr cpu e ⟨buf, ⟨load mem flag 4, bus, []⟩⟩ with
  | ok v s => simp only [Option.map_some, store_flag]
  | error f s => rfl

end Word

/-! ## Zeros behind the flag -/

theorem flagOnly_of_behindClear {mem : Nat → Byte} {flag : Nat} (hflag : mem flag = 1)
    (h : BehindClear mem flag) (cpu : CPUState) (e : List Char) (buf : TokenBuf) (bus : Bus) :
    FlagOnly cpu e buf bus mem flag := by
  have hword := load_flag_eq_one.2 ⟨hflag, h⟩
  constructor
  · intro v mem' hrun i hi
    unfold exprAt at hrun
    cases hexpr : expr cpu e ⟨buf, ⟨load mem flag 4, bus, []⟩⟩ with
    | error f s =>
        rw [hexpr] at hrun
        cases hrun
    | ok w s =>
        rw [hexpr] at hrun
        cases hrun
        -- the flag is kept or cleared, and neither changes a byte behind it
        have hlater := ((expr_within (R := Later) cpu e).ok hexpr).flag
        rw [hword] at hlater
        have hzero : ∀ k, 1 ≤ k → k < 4 → byteOf s.eval.success k = 0 := by
          intro k hk hk'
          rcases hlater with hs | hs
          · rw [hs, byteOf_one k hk hk']
          · rw [hs, byteOf_zero k hk']
        rw [store_apply]
        by_cases hin : flag ≤ i ∧ i < flag + 4
        · have hbyte := h (i - flag) (by omega) (by omega)
          have hidx : flag + (i - flag) = i := by omega
          rw [if_pos hin, hzero (i - flag) (by omega) (by omega), ← hbyte, hidx]
        · rw [if_neg hin]
  · rw [valueAndFlag_eq, valueAndFlag_eq, hword, load_clearBehind hflag]

/-! ## `$eax` -/

theorem valueAndFlag_eax (cpu : CPUState) (buf : TokenBuf) (bus : Bus) (mem : Nat → Byte)
    (flag : Nat) :
    valueAndFlag cpu nameEax buf bus mem flag =
      some (readAs (load mem flag 4) cpu.eax, mem flag) := by
  have hgpr : gprOf cpu nameEax = some cpu.eax := rfl
  have hleaf := evalLeaf_gprOf cpu (t := ⟨.tkGpr, nameEax⟩) rfl ⟨load mem flag 4, bus, []⟩
  rcases @expr_register cpu ['e', 'a', 'x'] (by decide) buf ⟨load mem flag 4, bus, []⟩ with
    ⟨buf', hrun⟩
  simp only [hgpr] at hleaf
  rw [valueAndFlag_eq, show nameEax = '$' :: ['e', 'a', 'x'] from rfl, hrun]
  simp only [liftEval, show '$' :: ['e', 'a', 'x'] = nameEax from rfl, hleaf, byteOf_load_flag]

/-! ## The memories in which every call keeps to its flag -/

/-- Every call of `expr` with a flag that is set keeps to the flag, in what it writes and in what
its result depends on, exactly when the three bytes behind the flag are 0. -/
theorem flagOnly_iff (mem : Nat → Byte) (flag : Nat) (hflag : mem flag = 1) :
    (∀ cpu e buf bus, FlagOnly cpu e buf bus mem flag) ↔ BehindClear mem flag := by
  constructor
  · intro hall
    have hword : load mem flag 4 = 1 := by
      by_contra hne
      -- `$eax` reads as 0 in this memory, and as 1 in the one with zeros behind the flag
      have hindep := (hall (CPUState.setGpr32 .zero rEax 1) nameEax .zero .zero).independent
      rw [valueAndFlag_eax, valueAndFlag_eax, load_clearBehind hflag, readAs, if_neg hne] at hindep
      have hvalue : (0 : Word) = readAs 1 (CPUState.setGpr32 .zero rEax 1).eax :=
        congrArg Prod.fst (Option.some.inj hindep)
      exact absurd hvalue (by decide)
    exact (load_flag_eq_one.1 hword).2
  · intro h cpu e buf bus
    exact flagOnly_of_behindClear hflag h cpu e buf bus

theorem flagOnly_iff_zeros :
    (∀ cpu e buf bus, FlagOnly cpu e buf bus (fun i => if i = 7 then 1 else 0) 7) ↔
      BehindClear (fun i => if i = 7 then 1 else 0) 7 :=
  flagOnly_iff _ 7 (by decide)

/-- A flag that is set, with zeros behind it and with another byte that is set: `$eax` is 1 in one
memory and 0 in the other. -/
theorem exprAt_reads_behind :
    (valueAndFlag (CPUState.setGpr32 .zero rEax 1) nameEax .zero .zero
        (fun i => if i = 0 then 1 else 0) 0 = some (1, 1)) ∧
      valueAndFlag (CPUState.setGpr32 .zero rEax 1) nameEax .zero .zero
        (fun i => if i = 0 ∨ i = 1 then 1 else 0) 0 = some (0, 1) := by
  rw [valueAndFlag_eax, valueAndFlag_eax]
  decide

/-! ## One call -/

/-- Two flags that are set, to `w` and to `w'`, or both cleared, beside the same memory. -/
def SameFlags (w w' : Word) (s t : EvalState) : Prop :=
  t.bus = s.bus ∧ ((s.success = w ∧ t.success = w') ∨ (s.success = 0 ∧ t.success = 0))

instance (w w' : Word) : EvalSim (SameFlags w w') where
  log _ := Sim.modify fun _ _ h => h
  clearSuccess := Sim.modify fun _ _ h => ⟨h.1, Or.inr ⟨rfl, rfl⟩⟩
  read addr len := by
    intro s t v s' h hrun
    unfold liftBus at hrun ⊢
    rw [h.1]
    cases hread : vaddrRead addr len s.bus with
    | error f bus =>
        rw [hread] at hrun
        cases hrun
    | ok v' bus =>
        rw [hread] at hrun
        cases hrun
        exact ⟨v, { t with bus }, rfl, rfl, rfl, h.2⟩

/-- Flags under which all registers read the same. -/
theorem evalLeaf_sameFlags {cpu cpu' : CPUState} {w w' : Word}
    (h : ∀ str, (gprOf cpu str).map (readAs w) = (gprOf cpu' str).map (readAs w')) (t : Token) :
    Sim (SameFlags w w') (evalLeaf cpu t) (evalLeaf cpu' t) (Alike (SameFlags w w')) := by
  -- no other leaf looks at the flag
  by_cases ht : t.type = .tkGpr
  · intro s u v s' hsu hrun
    rw [evalLeaf_gprOf cpu ht] at hrun
    rw [evalLeaf_gprOf cpu' ht]
    have hread := h t.str
    cases hgpr : gprOf cpu t.str with
    | none =>
        rw [hgpr, Option.map_none] at hread
        rw [hgpr] at hrun
        rw [Option.map_eq_none_iff.1 hread.symm]
        cases hrun
        exact ⟨0, _, rfl, rfl, hsu.1, Or.inr ⟨rfl, rfl⟩⟩
    | some x =>
        rw [hgpr, Option.map_some] at hread
        rcases Option.map_eq_some_iff.1 hread.symm with ⟨y, hgpr', hxy⟩
        rw [hgpr] at hrun
        rw [hgpr']
        cases hrun
        refine ⟨_, u, rfl, ?_, hsu⟩
        rcases hsu.2 with ⟨hs, hu⟩ | ⟨hs, hu⟩
        · rw [hs, hu]
          exact hxy
        · rw [hs, hu]
          rfl
  · unfold evalLeaf
    split
    case h_1 | h_2 => exact Sim.pure _
    case h_3 hgpr => exact absurd hgpr ht
    case h_4 => exact (EvalSim.log _).andThen fun _ => Sim.pure _

theorem gprOf_unknown (cpu : CPUState) {str : List Char} (h : str ∉ knownRegisters) :
    gprOf cpu str = none := by
  simp only [knownRegisters, List.mem_cons, List.not_mem_nil, or_false, not_or] at h
  simp [gprOf, getGprTable, h]

/-- Under a flag that is not 1 the registers read as if they were 0. -/
theorem readAs_gprOf (cpu : CPUState) {w : Word} (hw : w ≠ 1) (str : List Char) :
    (gprOf cpu str).map (readAs w) = (gprOf .zero str).map (readAs 1) := by
  by_cases hknown : str ∈ knownRegisters
  · have hread : ∀ v, readAs w v = readAs 1 0 := fun v => if_neg hw
    simp only [knownRegisters, List.mem_cons, List.not_mem_nil, or_false] at hknown
    rcases hknown with rfl | rfl | rfl | rfl <;> exact congrArg some (hread _)
  · rw [gprOf_unknown cpu hknown, gprOf_unknown .zero hknown]
    rfl

theorem expr_zeroed (cpu : CPUState) (e : List Char) (buf buf' : TokenBuf) (bus : Bus) {w : Word}
    (hw : w ≠ 1) (ms ms' : List EvalMessage) :
    (∃ v s s', expr cpu e ⟨buf, ⟨w, bus, ms⟩⟩ = .ok v s ∧
      expr .zero e ⟨buf', ⟨1, bus, ms'⟩⟩ = .ok v s' ∧ SameFlags w 1 s.eval s'.eval) ∨
    (∃ f f' s s', expr cpu e ⟨buf, ⟨w, bus, ms⟩⟩ = .error f s ∧
      expr .zero e ⟨buf', ⟨1, bus, ms'⟩⟩ = .error f' s') := by
  have hthere := expr_sim (evalLeaf_sameFlags (readAs_gprOf cpu hw)) e
  have hback := expr_sim (evalLeaf_sameFlags fun str => (readAs_gprOf cpu hw str).symm) e
  let st : ExprState := ⟨buf, ⟨w, bus, ms⟩⟩
  let st' : ExprState := ⟨buf', ⟨1, bus, ms'⟩⟩
  cases hdirty : expr cpu e st with
  | ok v s =>
      rcases hthere st st' v s ⟨rfl, Or.inl ⟨rfl, rfl⟩⟩ hdirty with ⟨v', s', hzero, rfl, hsame⟩
      exact Or.inl ⟨_, s, s', rfl, hzero, hsame⟩
  | error f s =>
      cases hzero : expr .zero e st' with
      | error f' s' => exact Or.inr ⟨f, f', s, s', rfl, rfl⟩
      | ok v s' =>
          rcases hback st' st v s' ⟨rfl, Or.inl ⟨rfl, rfl⟩⟩ hzero with ⟨v', s'', hrun, -⟩
          rw [hdirty] at hrun
          cases hrun

section Dirty

variable {mem : Nat → Byte} {flag : Nat} (hflag : mem flag = 1) (hbehind : ¬ BehindClear mem flag)

include hflag hbehind

/-- With anything but zeros behind the flag, a call gives what it gives over zeros when all
registers are 0. -/
theorem valueAndFlag_dirty (cpu : CPUState) (e : List Char) (buf : TokenBuf) (bus : Bus) :
    valueAndFlag cpu e buf bus mem flag =
      valueAndFlag .zero e buf bus (clearBehind mem flag) flag := by
  have hbyte : byteOf (load mem flag 4) 0 = byteOf (1 : Word) 0 := by
    rw [byteOf_load_flag, hflag]
    decide
  rw [valueAndFlag_eq, valueAndFlag_eq, load_clearBehind hflag]
  rcases expr_zeroed cpu e buf buf bus (mt (fun h => (load_flag_eq_one.1 h).2) hbehind) [] [] with
    ⟨v, s, s', hrun, hzero, -, ⟨hs, hs'⟩ | ⟨hs, hs'⟩⟩ | ⟨f, f', s, s', hrun, hzero⟩
  · simp only [hrun, hzero, hs, hs', hbyte]
  · simp only [hrun, hzero, hs, hs']
  · simp only [hrun, hzero]

/-- The frame of such a call. -/
theorem frame_dirty_iff (cpu : CPUState) (e : List Char) (buf : TokenBuf) (bus : Bus) :
    (∀ v mem', exprAt cpu e buf bus mem flag = some (v, mem') → ∀ i, i ≠ flag → mem' i = mem i) ↔
      ∀ v b, valueAndFlag cpu e buf bus mem flag = some (v, b) → b = 1 := by
  have hkept : byteOf (load mem flag 4) 0 = 1 := (byteOf_load_flag mem flag).trans hflag
  rw [valueAndFlag_eq]
  unfold exprAt
  cases hexpr : expr cpu e ⟨buf, ⟨load mem flag 4, bus, []⟩⟩ with
  | error f s => simp
  | ok v s =>
      simp only [Option.some.injEq, Prod.mk.injEq, and_imp, forall_eq', forall_apply_eq_imp_iff]
      rcases ((expr_within (R := Later) cpu e).ok hexpr).flag with hs | hs
      · -- the flag is kept: its word is stored as it was loaded
        rw [hs]
        refine iff_of_true (fun i _ => ?_) hkept
        rw [store_load]
      · -- the flag is cleared, and with it the byte behind it that is not 0
        rw [hs]
        refine iff_of_false (fun h => hbehind fun k hk hk' => ?_) (by decide)
        have hcleared := h (flag + k) (by omega)
        rw [store_apply, if_pos (by omega), Nat.add_sub_cancel_left, byteOf_zero k hk'] at hcleared
        exact hcleared.symm

/-- With anything but zeros behind the flag, a call keeps to the flag exactly when the evaluation
with all registers 0 keeps the flag set and gives the same as the one with their contents. -/
theorem flagOnly_dirty_iff (cpu : CPUState) (e : List Char) (buf : TokenBuf) (bus : Bus) :
    FlagOnly cpu e buf bus mem flag ↔
      (∀ v b, valueAndFlag .zero e buf bus (clearBehind mem flag) flag = some (v, b) → b = 1) ∧
        valueAndFlag .zero e buf bus (clearBehind mem flag) flag =
          valueAndFlag cpu e buf bus (clearBehind mem flag) flag := by
  rw [← valueAndFlag_dirty hflag hbehind cpu e buf bus,
    ← frame_dirty_iff hflag hbehind cpu e buf bus]
  exact ⟨fun h => ⟨h.frame, h.independent⟩, fun h => ⟨h.1, h.2⟩⟩

end Dirty

end Nemu
