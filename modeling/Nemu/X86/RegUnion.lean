import Nemu.X86.MovCorrect

/-!
# The union of the register file

`CPU_state` as it lies in memory: the union of `gpr[8]` and the eight named words, and `pc` behind
it.  `rtl_sr` is a store to the bytes of a sub-register and `rtl_lr` a load from them, so that what
is written under one name is read under another byte by byte.
-/

namespace Nemu

open LittleEndian StateRules

/-! ## Layout -/

/-- The bytes of `CPU_state`: `gpr[i]` takes the four bytes from `4 * i` on. -/
def CPUState.image (cpu : CPUState) (a : Nat) : Byte :=
  if h : a < 32 then byteOf (cpu.gpr ⟨a / 4, by omega⟩) (a % 4) else byteOf cpu.pc (a - 32)

/-- The offset of a sub-register of the i386: AL, CL, DL, BL and AH, CH, DH, BH are the first and
the second bytes of the first four registers. -/
def subReg (r : Fin 8) (w : Nat) : Nat :=
  if w = 1 then 4 * (r.val % 4) + r.val / 4 else 4 * r.val

/-- The members of the `struct` in the union, in their order. -/
def CPUState.namedFields (cpu : CPUState) : List Word :=
  [cpu.eax, cpu.ecx, cpu.edx, cpu.ebx, cpu.esp, cpu.ebp, cpu.esi, cpu.edi]

/-- What a sub-register holds. -/
def CPUState.sub (cpu : CPUState) (r : Fin 8) (w : Nat) : Word := load cpu.image (subReg r w) w

/-! ## Loads -/

theorem image_gpr (cpu : CPUState) (r : Fin 8) {k : Nat} (hk : k < 4) :
    cpu.image (4 * r.val + k) = byteOf (cpu.gpr r) k := by
  have hr := r.isLt
  have hlt : 4 * r.val + k < 32 := by omega
  have hreg : (⟨(4 * r.val + k) / 4, by omega⟩ : Fin 8) = r := Fin.ext (by dsimp only; omega)
  have hbyte : (4 * r.val + k) % 4 = k := by omega
  rw [CPUState.image, dif_pos hlt, hreg, hbyte]

theorem load_image (cpu : CPUState) (r : Fin 8) : load cpu.image (4 * r.val) 4 = cpu.gpr r := by
  refine eq_of_byteOf fun k hk => ?_
  rw [byteOf_load _ _ _ _ hk, if_pos hk, image_gpr cpu r hk]

/-- The named words are the words of the array. -/
theorem namedFields_eq (cpu : CPUState) (r : Fin 8) :
    cpu.namedFields[r.val]? = some (load cpu.image (4 * r.val) 4) := by
  have hfields : cpu.namedFields = List.ofFn cpu.gpr := rfl
  rw [load_image, hfields, List.getElem?_ofFn, dif_pos r.isLt]

theorem load_image_two (cpu : CPUState) (r : Fin 8) :
    load cpu.image (4 * r.val) 2 = (cpu.gpr16 r).setWidth 32 := by
  apply BitVec.eq_of_getLsbD_eq
  intro i hi
  have hmod : i % 8 < 8 := Nat.mod_lt _ (by decide)
  have hidx : 8 * (i / 8) + i % 8 = i := by omega
  rw [getLsbD_load, CPUState.gpr16, BitVec.getLsbD_setWidth, BitVec.getLsbD_setWidth,
    image_gpr cpu r (by omega), getLsbD_byteOf, hidx, decide_eq_true hmod, Bool.true_and,
    Bool.and_assoc]

/-- `rtl_lr` returns the bytes of the sub-register. -/
theorem rtlLr_image (r : Fin 8) {w : Nat} (hw : ValidWidth w) (s : Machine) :
    rtlLr (BitVec.ofNat 32 r.val) w s = .ok (s.cpu.sub r w) s := by
  have hr := r.isLt
  rcases hw with rfl | rfl | rfl
  · have hbyte := image_gpr s.cpu ⟨r.val % 4, mod_four_lt_eight r⟩ (k := r.val / 4) (by omega)
    have hsub : s.cpu.sub r 1 =
        (s.cpu.gpr8 ⟨r.val % 4, mod_four_lt_eight r⟩ (r.val / 4)).setWidth 32 := by
      rw [CPUState.sub, load_one, subReg, if_pos rfl, hbyte]
      rfl
    rw [rtlLr, bind_ok (get_run s), hsub]
    exact bind_ok (checkRegIndex_run r s)
  · rw [rtlLr, bind_ok (get_run s), CPUState.sub, subReg, if_neg (by decide), load_image_two]
    exact bind_ok (checkRegIndex_run r s)
  · rw [rtlLr, bind_ok (get_run s), CPUState.sub, subReg, if_neg (by decide), load_image]
    exact bind_ok (checkRegIndex_run r s)

/-! ## Stores -/

theorem image_insertAt (cpu : CPUState) (r : Fin 8) {k n : Nat} (h : k + n ≤ 4) (v : Word) :
    (cpu.insertAt r k n v).image = store cpu.image (4 * r.val + k) n v := by
  have hr := r.isLt
  funext a
  rw [store_apply, CPUState.image, CPUState.image]
  by_cases ha : a < 32
  · rw [dif_pos ha, dif_pos ha]
    by_cases hreg : a / 4 = r.val
    · -- the bytes of the register itself
      have hfin : (⟨a / 4, by omega⟩ : Fin 8) = r := Fin.ext hreg
      have hsub : a - (4 * r.val + k) = a % 4 - k := by omega
      have hiff : (4 * r.val + k ≤ a ∧ a < 4 * r.val + k + n) ↔ k ≤ a % 4 ∧ a % 4 < k + n := by
        omega
      simp only [hfin, CPUState.insertAt, Function.update_self, hsub, hiff]
      exact byteOf_insert _ _ _ _ (by omega)
    · have hne : (⟨a / 4, by omega⟩ : Fin 8) ≠ r := fun h => hreg (congrArg Fin.val h)
      simp only [CPUState.insertAt, Function.update_of_ne hne]
      rw [if_neg (by omega)]
  · rw [dif_neg ha, dif_neg ha, if_neg (by omega)]
    rfl

/-- The registers after `rtl_sr`. -/
def CPUState.put (cpu : CPUState) (r : Fin 8) (w : Nat) (v : Word) : CPUState :=
  match w with
  | 1 => cpu.setGpr8 ⟨r.val % 4, mod_four_lt_eight r⟩ (r.val / 4) v
  | 2 => cpu.setGpr16 r v
  | _ => cpu.setGpr32 r v

theorem rtlSr_run (r : Fin 8) (v : Word) {w : Nat} (hw : ValidWidth w) (s : Machine) :
    rtlSr (BitVec.ofNat 32 r.val) v w s = .ok ⟨⟩ { s with cpu := s.cpu.put r w v } := by
  rcases hw with rfl | rfl | rfl <;> exact bind_ok (checkRegIndex_run r s)

theorem put_image (cpu : CPUState) (r : Fin 8) {w : Nat} (hw : ValidWidth w) (v : Word) :
    (cpu.put r w v).image = store cpu.image (subReg r w) w v := by
  have hr := r.isLt
  rcases hw with rfl | rfl | rfl
  · exact image_insertAt cpu ⟨r.val % 4, mod_four_lt_eight r⟩ (by omega) v
  · exact image_insertAt cpu r (k := 0) (by omega) v
  · change (cpu.setGpr32 r v).image = _
    rw [setGpr32_eq]
    exact image_insertAt cpu r (k := 0) (by omega) v

theorem put_pc (cpu : CPUState) (r : Fin 8) (w : Nat) (v : Word) : (cpu.put r w v).pc = cpu.pc := by
  unfold CPUState.put
  split <;> rfl

/-- `rtl_sr` changes the bytes of one sub-register, `rtl_lr` reads those of any other, and the named
words lie in the same bytes. -/
theorem rtlSr_rtlLr_image (s : Machine) (r r' : Fin 8) {w w' : Nat} (hw : ValidWidth w)
    (hw' : ValidWidth w') (v : Word) :
    ∃ s', rtlSr (BitVec.ofNat 32 r.val) v w s = .ok ⟨⟩ s' ∧
      (∀ j < w, s'.cpu.image (subReg r w + j) = byteOf v j) ∧
      (∀ a, a < subReg r w ∨ subReg r w + w ≤ a → s'.cpu.image a = s.cpu.image a) ∧
      s'.cpu.pc = s.cpu.pc ∧
      rtlLr (BitVec.ofNat 32 r'.val) w' s' =
        .ok (load (store s.cpu.image (subReg r w) w v) (subReg r' w') w') s' ∧
      ∀ i : Fin 8, s'.cpu.namedFields[i.val]? =
        some (load (store s.cpu.image (subReg r w) w v) (4 * i.val) 4) := by
  have himage := put_image s.cpu r hw v
  refine ⟨{ s with cpu := s.cpu.put r w v }, rtlSr_run r v hw s, fun j hj => ?_, fun a ha => ?_,
    put_pc s.cpu r w v, ?_, fun i => ?_⟩
  · rw [himage, store_apply, if_pos (by omega), Nat.add_sub_cancel_left]
  · rw [himage, store_apply, if_neg (by omega)]
  · rw [rtlLr_image r' hw', CPUState.sub, himage]
  · rw [namedFields_eq, himage]

/-- AH is written and EAX read. -/
theorem rtlSr_rtlLr_image_ah :
    ∃ s', rtlSr (BitVec.ofNat 32 rEsp.val) 0x1234 1 Machine.zero = .ok ⟨⟩ s' ∧
      (∀ j < 1, s'.cpu.image (subReg rEsp 1 + j) = byteOf (0x1234 : Word) j) ∧
      (∀ a, a < subReg rEsp 1 ∨ subReg rEsp 1 + 1 ≤ a →
        s'.cpu.image a = Machine.zero.cpu.image a) ∧
      s'.cpu.pc = Machine.zero.cpu.pc ∧
      rtlLr (BitVec.ofNat 32 rEax.val) 4 s' =
        .ok (load (store Machine.zero.cpu.image (subReg rEsp 1) 1 0x1234) (subReg rEax 4) 4) s' ∧
      ∀ i : Fin 8, s'.cpu.namedFields[i.val]? =
        some (load (store Machine.zero.cpu.image (subReg rEsp 1) 1 0x1234) (4 * i.val) 4) :=
  rtlSr_rtlLr_image Machine.zero rEsp rEax (Or.inl rfl) (Or.inr (Or.inr rfl)) 0x1234

end Nemu
