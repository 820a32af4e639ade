import Nemu.Risc.Rules

/-!
# What every instruction keeps

Whether an instruction returns or fails, and wherever its accesses go, register 0, the flag `is_jmp`
and the map of `pmem` are what they were.
-/

namespace Nemu
namespace Risc

open StateRules

structure Keeps (s s' : Machine) : Prop where
  zero : s'.cpu.gpr 0 = s.cpu.gpr 0
  isJmp : s'.decinfo.isJmp = s.decinfo.isJmp
  map : SameMap s.bus s'.bus

instance : IsPreorder Machine Keeps where
  refl _ := ⟨rfl, rfl, rfl⟩
  trans _ _ _ h h' := ⟨h'.zero.trans h.zero, h'.isJmp.trans h.isJmp, Eq.trans h'.map h.map⟩

theorem Machine.Boundary.of_keeps {base : Word} {s s' : Machine} (h : s.Boundary base)
    (hkeeps : Keeps s s') : s'.Boundary base :=
  ⟨Eq.trans hkeeps.map h.map, hkeeps.isJmp.trans h.isJmp, hkeeps.zero.trans h.zero⟩

/-! ## Primitive effects -/

theorem onBus_within {α : Type} {x : OnBus α} (hx : Within SameMap x) : Within Keeps (onBus x) := by
  intro s
  rw [final_onBus]
  exact ⟨rfl, rfl, hx s.bus⟩

theorem getOperand_within (op : OperandId) : Within Keeps (getOperand op) :=
  Within.get.bind fun _ => Within.pure _

theorem modifyOperand_within (op : OperandId) (f : Operand → Operand) :
    Within Keeps (modifyOperand op f) :=
  Within.modify fun _ => ⟨rfl, rfl, rfl⟩

theorem printAsm_within (text : List Char) : Within Keeps (printAsm text) :=
  Within.modify fun _ => ⟨rfl, rfl, rfl⟩

theorem printAsmTemplate2_within (instr : List Char) : Within Keeps (printAsmTemplate2 instr) :=
  (getOperand_within .src).bind fun _ => (getOperand_within .dest).bind fun _ => printAsm_within _

theorem printAsmTemplate3_within (instr : List Char) : Within Keeps (printAsmTemplate3 instr) :=
  (getOperand_within .src).bind fun _ => (getOperand_within .src2).bind fun _ =>
    (getOperand_within .dest).bind fun _ => printAsm_within _

theorem rtlLm_within (addr : Word) (len : Nat) : Within Keeps (rtlLm addr len) :=
  onBus_within (paddrRead_within addr len)

theorem rtlSm_within (addr v : Word) (len : Nat) : Within Keeps (rtlSm addr v len) :=
  onBus_within (paddrWrite_within addr v len)

theorem rtlExit_within (state : RunState) (pc ret : Word) : Within Keeps (rtlExit state pc ret) :=
  Within.modify fun _ => ⟨rfl, rfl, rfl⟩

theorem instrFetch_within (len : Nat) : Within Keeps (instrFetch len) := by
  refine Within.get.bind fun s => (rtlLm_within s.decinfo.seqPc len).bind fun instr => ?_
  refine (Within.modify fun _ => ⟨rfl, rfl, rfl⟩).bind fun _ => ?_
  refine Within.bind ?_ fun _ =>
    (Within.modify fun _ => ⟨rfl, rfl, rfl⟩).bind fun _ => Within.pure _
  intro s
  rcases strcatfBytebuf_forM (fun i => byteText (LittleEndian.byteOf instr i)) (List.range len) s
    with ⟨t, ht⟩
  rw [ht]
  exact ⟨rfl, rfl, rfl⟩

/-! ## Registers -/

theorem checkRegIndex_within (index : Word) : Within Keeps (checkRegIndex index) := by
  intro s
  unfold checkRegIndex
  split
  · exact refl_of Keeps s
  · exact refl_of Keeps s

theorem rtlLr_within (r : Word) : Within Keeps (rtlLr r) := by
  unfold rtlLr
  refine Within.ite ?_ (Within.pure _)
  exact (checkRegIndex_within r).bind fun _ => Within.get.bind fun _ => Within.pure _

/-- The test of `rtl_sr` is what keeps register 0. -/
theorem rtlSr_within (r v : Word) : Within Keeps (rtlSr r v) := by
  unfold rtlSr
  by_cases h : r = 0
  · rw [if_neg (not_not.2 h)]
    exact Within.pure _
  · rw [if_pos h]
    refine (checkRegIndex_within r).bind_of_ok fun i s s' hrun => ?_
    -- `check_reg_index` returns the number it was asked about
    have hne : (0 : Fin 32) ≠ i := by
      rintro rfl
      unfold checkRegIndex at hrun
      split at hrun
      case isTrue hlt =>
        injection hrun with hi
        have hnat : r.toNat = 0 := congrArg Fin.val hi
        exact h (BitVec.eq_of_toNat_eq hnat)
      case isFalse => cases hrun
    exact Within.modify fun s => ⟨Function.update_of_ne hne _ _, rfl, rfl⟩

/-! ## Decoding -/

theorem printDop_within (op : OperandId) (text : List Char) : Within Keeps (printDop op text) :=
  modifyOperand_within op _

theorem regNameOf_within (regsl : List (List Char)) (r : Word) :
    Within Keeps (regNameOf regsl r) := by
  unfold regNameOf
  cases regsl[r.toNat]? with
  | none => exact Within.throw _
  | some name => exact Within.pure _

theorem decodeOpI_within (op : OperandId) (v : Word) : Within Keeps (decodeOpI op v) :=
  (modifyOperand_within op _).bind fun _ => printDop_within op _

theorem loadOperand_within (op : OperandId) (r : Word) (loadVal : Bool) :
    Within Keeps (loadOperand op r loadVal) :=
  Within.ite ((rtlLr_within r).bind fun _ => modifyOperand_within op _) (Within.pure _)

theorem decodeOpR_within (regsl : List (List Char)) (op : OperandId) (r : Word) (loadVal : Bool) :
    Within Keeps (decodeOpR regsl op r loadVal) := by
  refine (modifyOperand_within op _).bind fun _ => (loadOperand_within op r loadVal).bind fun _ => ?_
  exact (regNameOf_within regsl r).bind fun _ => printDop_within op _

theorem decodeAddr_within (regsl : List (List Char)) (rs simm : Word) :
    Within Keeps (decodeAddr regsl rs simm) := by
  refine (decodeOpR_within regsl .src rs true).bind fun _ => ?_
  refine (decodeOpI_within .src2 simm).bind fun _ => ?_
  refine (getOperand_within .src).bind fun src => (getOperand_within .src2).bind fun _ => ?_
  refine (regNameOf_within regsl src.word).bind fun _ => (printDop_within .src _).bind fun _ => ?_
  exact modifyOperand_within .src _

/-! ## Execution -/

theorem execLd_within : Within Keeps execLd := by
  refine Within.get.bind fun s => (getOperand_within .src).bind fun src => ?_
  refine (rtlLm_within src.word _).bind fun v => ?_
  refine (Within.modify fun _ => ⟨rfl, rfl, rfl⟩).bind fun _ => ?_
  refine (getOperand_within .dest).bind fun dest => ?_
  refine (rtlSr_within dest.word v).bind fun _ => ?_
  split
  · exact printAsmTemplate2_within _
  · exact printAsmTemplate2_within _
  · exact printAsmTemplate2_within _
  · exact Within.throw _

theorem execSt_within : Within Keeps execSt := by
  refine Within.get.bind fun s => (getOperand_within .src).bind fun src => ?_
  refine (getOperand_within .dest).bind fun dest => ?_
  refine (rtlSm_within src.word dest.val _).bind fun _ => ?_
  split
  · exact printAsmTemplate2_within _
  · exact printAsmTemplate2_within _
  · exact printAsmTemplate2_within _
  · exact Within.throw _

theorem execInv_within : Within Keeps execInv := by
  refine Within.get.bind fun s => (Within.modify fun _ => ⟨rfl, rfl, rfl⟩).bind fun _ => ?_
  refine (instrFetch_within 4).bind fun _ => (instrFetch_within 4).bind fun _ => ?_
  exact (rtlExit_within _ _ _).bind fun _ => printAsm_within _

theorem execNemuTrap_within (ret : Fin 32) : Within Keeps (execNemuTrap ret) := by
  refine (onBus_within BusRel.skipRef).bind fun _ => Within.get.bind fun s => ?_
  exact (rtlExit_within _ _ _).bind fun _ => printAsm_within _

/-- Between instructions `is_jmp` is clear, and `update_pc` leaves it so. -/
theorem Machine.Boundary.execOnce {base : Word} {isaExec : Exec Unit} (hisa : Within Keeps isaExec)
    {s : Machine} (h : s.Boundary base) : (final (execOnce isaExec s)).Boundary base := by
  have h₀ : Machine.Boundary base { s with decinfo := { s.decinfo with seqPc := s.cpu.pc } } :=
    ⟨h.map, h.isJmp, h.zero⟩
  cases hrun : isaExec { s with decinfo := { s.decinfo with seqPc := s.cpu.pc } } with
  | ok u s₁ =>
      have h₁ := h₀.of_keeps (hisa.ok hrun)
      rw [execOnce_run hrun h₁.isJmp]
      exact ⟨h₁.map, h₁.isJmp, h₁.zero⟩
  | error e s₁ =>
      have hkeeps := hisa { s with decinfo := { s.decinfo with seqPc := s.cpu.pc } }
      rw [hrun] at hkeeps
      -- a fault leaves `update_pc` undone, and the invariant does not need it
      have herror : Risc.execOnce isaExec s = .error e s₁ := by
        rw [Risc.execOnce, bind_ok (get_run s)]
        exact (bind_ok (modify_run _ s)).trans (bind_error hrun)
      rw [herror]
      exact h₀.of_keeps hkeeps

end Risc
end Nemu
