import Nemu.X86.Special

/-!
# What an instruction touches

Which bytes an instruction fetches and which memory operand it names, read off the memory at its
address.  A decode helper returns as soon as these lie in `pmem`, whatever the bytes are, with the
one exception of the helper for sign-extended immediates.
-/

namespace Nemu

open LittleEndian StateRules

/-! ## Footprints -/

/-- The ModR/M byte at `a`, with the SIB byte and the displacement that may follow it. -/
def RM.ofMem (mem : Nat → Byte) (a : Nat) : RM :=
  let m : RM := { modrm := mem a, sib := mem (a + 1), disp := 0 }
  { m with disp := load mem (if m.hasSib then a + 2 else a + 1) 4 }

/-- The number of bytes that a helper fetches from `a` on. -/
def DHelper.size (mem : Nat → Byte) (a w : Nat) : DHelper → Nat
  | .movG2E | .movE2G | .E | .gp7E | .SI2E | .gp21E | .gp2cl2E => (RM.ofMem mem a).bytes.length
  | .I2E | .movI2E => (RM.ofMem mem a).bytes.length + w
  | .gp2Ib2E => (RM.ofMem mem a).bytes.length + 1
  | .movI2r => w
  | .O2a | .a2O => 4

/-- The operand that may lie in memory. -/
def DHelper.place (mem : Nat → Byte) (cpu : CPUState) (a : Nat) : DHelper → Option Place
  | .movG2E | .movE2G | .E | .gp7E | .SI2E | .gp21E | .gp2cl2E | .I2E | .movI2E | .gp2Ib2E =>
      some ((RM.ofMem mem a).place cpu)
  | .movI2r => none
  | .O2a | .a2O => some (.mem (load mem a 4))

/-! ## Memory as instruction bytes -/

theorem holds_ofMem (mem : Nat → Byte) (a : Nat) : Holds mem a (RM.ofMem mem a).bytes :=
  (holds_singleton mem a).append_of (holds_behind (mem a) mem (a + 1))

/-- What a helper finds when it starts, with its footprint in `pmem`. -/
structure DHelper.Ready (d : DHelper) (s : Machine) (w : Nat) : Prop where
  width : ∀ op, (s.decinfo.operand op).width = w
  valid : ValidWidth w
  map : s.bus.pmemMap = registerPmem 0
  inside : s.decinfo.seqPc.toNat + d.size s.bus.pmem s.decinfo.seqPc.toNat w ≤ pmemSize
  place : ∀ p, d.place s.bus.pmem s.cpu s.decinfo.seqPc.toNat = some p → p.InPmem w

theorem DHelper.Ready.validWidth {d : DHelper} {s : Machine} {w : Nat} (h : d.Ready s w)
    (op : OperandId) : ValidWidth (s.decinfo.operand op).width := by
  rw [h.width op]
  exact h.valid

/-- The ModR/M byte at `seq_pc`. -/
def Machine.rm (s : Machine) : RM := RM.ofMem s.bus.pmem s.decinfo.seqPc.toNat

theorem fetches_rm {s : Machine} (hmap : s.bus.pmemMap = registerPmem 0)
    (hin : s.decinfo.seqPc.toNat + s.rm.bytes.length ≤ pmemSize) : s.Fetches s.rm.bytes :=
  ⟨hmap, holds_ofMem _ _, hin⟩

/-- A word at `seq_pc`. -/
theorem fetches_word {s : Machine} {n : Nat} (hmap : s.bus.pmemMap = registerPmem 0) (hn : n ≤ 4)
    (hin : s.decinfo.seqPc.toNat + n ≤ pmemSize) :
    s.Fetches (bytesOf (load s.bus.pmem s.decinfo.seqPc.toNat 4) n) :=
  ⟨hmap, holds_bytesOf_load _ _ hn, by rwa [length_bytesOf]⟩

/-! ## Operands -/

/-- Operands that are filled in without their value. -/
theorem Operand.Shows.unloaded {o : Operand} {s : Machine} {p : Place} {w : Nat} {l : Bool}
    (h : o.Shows s p w l) (s' : Machine) : o.Shows s' p w false :=
  ⟨h.type, h.word, h.width, fun hl => by cases hl⟩

/-- What a helper leaves: it has decoded `n` bytes, and the destination is a place that can be
written. -/
structure Readies (s : Machine) (n w : Nat) (s' : Machine) : Prop where
  decoded : Decoded s n s'
  dest : ∃ p, (s'.decinfo.operand .dest).Shows s' p w false ∧ p.InPmem w

/-- A helper for the destination, and behind it one for the source. -/
theorem dest_then_src {x y : Exec Unit} {s : Machine} {m n k w : Nat} {p : Place} {l : Bool}
    (hx : Ensures x s fun _ s₁ => ∃ o, Fills s m .dest o s₁ ∧ o.Shows s p w l)
    (hy : ∀ s₁ o, Fills s m .dest o s₁ → Ensures y s₁ fun _ s' => ∃ o', Fills s₁ n .src o' s')
    (hk : m + n = k) (hin : p.InPmem w) :
    Ensures (x >>= fun _ => y) s fun _ s' => Readies s k w s' := by
  subst hk
  refine hx.bind fun _ s₁ h₁ => ?_
  rcases h₁ with ⟨o, hfills, hshows⟩
  refine (hy s₁ o hfills).mono fun _ s' h' => ?_
  rcases h' with ⟨o', hfills'⟩
  rcases hfills.both (by decide) hfills' with ⟨hdec, ho, -⟩
  exact ⟨hdec, p, ho ▸ hshows.unloaded s', hin⟩

theorem Decoded.toNat_seqPc {s s' : Machine} {n : Nat} (h : Decoded s n s')
    (hin : s.decinfo.seqPc.toNat + n ≤ pmemSize) :
    s'.decinfo.seqPc.toNat = s.decinfo.seqPc.toNat + n := by
  have hsize : pmemSize = 134217728 := rfl
  rw [h.seqPc, BitVec.toNat_add, BitVec.toNat_ofNat]
  omega

section Source

variable {s s₁ : Machine} {m n w : Nat} {o : Operand}

theorem fills_withOperand (s : Machine) (op : OperandId) (o : Operand) :
    Fills s 0 op o (s.withOperand op o) :=
  ⟨withOperand_still s op o, rfl⟩

/-- Two steps on the same operand. -/
theorem Fills.again {s₂ : Machine} {op : OperandId} {o' : Operand} (h : Fills s m op o s₁)
    (h' : Fills s₁ n op o' s₂) : Fills s (m + n) op o' s₂ := by
  refine ⟨h.decoded.trans h'.decoded, ?_⟩
  rw [h'.operand, h.operand, Function.update_idem]

/-- An immediate operand behind `m` bytes. -/
theorem immediate_src (h : Decoded s m s₁) (hwidth : (s₁.decinfo.operand .src).width = w)
    (hw : ValidWidth w) (hmap : s.bus.pmemMap = registerPmem 0)
    (hin : s.decinfo.seqPc.toNat + (m + w) ≤ pmemSize) :
    Ensures (decodeOpI .src) s₁ fun _ s' => ∃ o', Fills s₁ w .src o' s' := by
  subst hwidth
  have hpc := h.toNat_seqPc (by omega)
  have hmap₁ : s₁.bus.pmemMap = registerPmem 0 := h.bus ▸ hmap
  refine (decodeOpI_spec hw (fetches_word hmap₁ hw.bounds.2 (by omega))).mono fun _ s' h' => ?_
  rcases h' with ⟨o', hfills, -⟩
  exact ⟨o', hfills⟩

/-- The immediate operand of a shift has one byte, whatever the width of the other is. -/
theorem byte_src (h : Decoded s m s₁) (hmap : s.bus.pmemMap = registerPmem 0)
    (hin : s.decinfo.seqPc.toNat + (m + 1) ≤ pmemSize) :
    Ensures (setOperandWidth .src 1 >>= fun _ => decodeOpI .src) s₁ fun _ s' =>
      ∃ o', Fills s₁ 1 .src o' s' := by
  refine Ensures.step (modifyOperand_run s₁ .src _) ?_
  have hset := fills_withOperand s₁ .src { s₁.decinfo.operand .src with width := 1 }
  refine (immediate_src (h.trans hset.decoded) ?_ (Or.inl rfl) hmap (by omega)).mono
    fun _ s' h' => ?_
  · rw [hset.operand, Function.update_self]
  · rcases h' with ⟨o', hfills⟩
    exact ⟨o', Nat.zero_add 1 ▸ hset.again hfills⟩

theorem one_src (s₁ : Machine) :
    Ensures (do setPlace .src .imm 1; setVal .src 1; printDop .src ['$', '1']) s₁ fun _ s' =>
      ∃ o', Fills s₁ 0 .src o' s' := by
  refine Ensures.step (modifyOperand_run _ _ _) (Ensures.step (modifyOperand_run _ _ _) ?_)
  refine Ensures.of_ok (modifyOperand_run _ _ _) ?_
  simp only [withOperand_idem]
  exact ⟨_, fills_withOperand s₁ .src _⟩

theorem cl_src (s₁ : Machine) :
    Ensures (do
      setPlace .src .reg (BitVec.ofNat 32 rCl.val)
      setVal .src (← rtlLr (BitVec.ofNat 32 rCl.val) 1)
      printDop .src ['%', 'c', 'l']) s₁ fun _ s' => ∃ o', Fills s₁ 0 .src o' s' := by
  refine Ensures.step (modifyOperand_run _ _ _) ?_
  rcases rtlLr_run rCl (Or.inl rfl : ValidWidth 1) (s₁.withOperand .src
    { s₁.decinfo.operand .src with type := .reg, word := BitVec.ofNat 32 rCl.val }) with
    ⟨v, hv, -⟩
  refine Ensures.step hv (Ensures.step (modifyOperand_run _ _ _) ?_)
  refine Ensures.of_ok (modifyOperand_run _ _ _) ?_
  simp only [withOperand_idem]
  exact ⟨_, fills_withOperand s₁ .src _⟩

end Source

/-! ## Helpers -/

section Helpers

variable {s : Machine} {w : Nat}

/-- The operand of the ModR/M byte, as the destination. -/
theorem rm_dest (loadVal : Bool) (hwidth : (s.decinfo.operand .dest).width = w) (hw : ValidWidth w)
    (hmap : s.bus.pmemMap = registerPmem 0)
    (hin : s.decinfo.seqPc.toNat + s.rm.bytes.length ≤ pmemSize)
    (hplace : (s.rm.place s.cpu).InPmem w) :
    Ensures (readModRM .dest loadVal none false) s fun _ s₁ =>
      ∃ o, Fills s s.rm.bytes.length .dest o s₁ ∧ o.Shows s (s.rm.place s.cpu) w loadVal := by
  subst hwidth
  exact readModRM_none_spec hw (fetches_rm hmap hin) fun _ => hplace

/-- The ModR/M byte alone. -/
theorem rm_readies (loadVal : Bool) (h : DHelper.E.Ready s w) :
    Ensures (readModRM .dest loadVal none false) s fun _ s' => Readies s s.rm.bytes.length w s' := by
  have hplace : (s.rm.place s.cpu).InPmem w := h.place _ rfl
  refine (rm_dest loadVal (h.width _) h.valid h.map h.inside hplace).mono fun _ s' h' => ?_
  rcases h' with ⟨o, hfills, hshows⟩
  refine ⟨hfills.decoded, _, ?_, hplace⟩
  rw [hfills.operand, Function.update_self]
  exact hshows.unloaded s'

/-- A register and the operand of the ModR/M byte. -/
theorem rm_reg_readies {rm reg : OperandId} {loadRm loadReg : Bool} (hne : rm ≠ reg)
    (hdest : rm = .dest ∨ reg = .dest) (h : DHelper.E.Ready s w) :
    Ensures (readModRM rm loadRm (some reg) loadReg) s fun _ s' =>
      Readies s s.rm.bytes.length w s' := by
  have hplace : (s.rm.place s.cpu).InPmem w := h.place _ rfl
  refine (readModRM_spec hne (h.validWidth _) (h.validWidth _) (fetches_rm h.map h.inside)
    (fun _ => by rwa [h.width])).mono fun _ s' h' => ?_
  rcases h' with ⟨o, o', hdec, ho, ho', hshows, hshows'⟩
  rw [h.width] at hshows hshows'
  refine ⟨hdec, ?_⟩
  rcases hdest with rfl | rfl
  · exact ⟨_, ho ▸ hshows.unloaded s', hplace⟩
  · exact ⟨.reg s.rm.reg, ho' ▸ hshows'.unloaded s', trivial⟩

theorem immediate_readies (loadVal : Bool) (h : DHelper.movI2E.Ready s w) :
    Ensures (readModRM .dest loadVal none false >>= fun _ => decodeOpI .src) s fun _ s' =>
      Readies s (s.rm.bytes.length + w) w s' := by
  have hplace : (s.rm.place s.cpu).InPmem w := h.place _ rfl
  have hin : s.decinfo.seqPc.toNat + (s.rm.bytes.length + w) ≤ pmemSize := h.inside
  refine dest_then_src (rm_dest loadVal (h.width _) h.valid h.map (by omega) hplace)
    (fun s₁ o hfills => ?_) rfl hplace
  have hsrc : (s₁.decinfo.operand .src).width = w := by
    rw [hfills.width_of_ne (by decide), h.width]
  exact immediate_src hfills.decoded hsrc h.valid h.map hin

theorem movI2r_readies (h : DHelper.movI2r.Ready s w) :
    Ensures DHelper.movI2r.run s fun _ s' => Readies s w w s' := by
  have hdest : Ensures (decodeOpR .dest false) s fun _ s₁ => ∃ o, Fills s 0 .dest o s₁ ∧
      o.Shows s (.reg ⟨s.decinfo.opcode % 8, Nat.mod_lt _ (by decide)⟩) w false := by
    refine Ensures.step (get_run s) ?_
    have hreg := decodeReg_spec ⟨s.decinfo.opcode % 8, Nat.mod_lt _ (by decide)⟩ false
      (h.validWidth .dest)
    rw [h.width] at hreg
    exact hreg
  refine dest_then_src hdest (fun s₁ o hfills => ?_) (Nat.zero_add w) trivial
  have hsrc : (s₁.decinfo.operand .src).width = w := by
    rw [hfills.width_of_ne (by decide), h.width]
  have hin : s.decinfo.seqPc.toNat + w ≤ pmemSize := h.inside
  exact immediate_src hfills.decoded hsrc h.valid h.map (by omega)

theorem O2a_readies (h : DHelper.O2a.Ready s w) :
    Ensures DHelper.O2a.run s fun _ s' => Readies s 4 w s' := by
  have hplace := h.place _ rfl
  refine (decodeOpO_spec (h.validWidth _) (fetches_word h.map (by decide) h.inside)
    (fun _ => by rwa [h.width])).bind fun _ s₁ h₁ => ?_
  rcases h₁ with ⟨o, hfills, -⟩
  have hdest : (s₁.decinfo.operand .dest).width = w := by
    rw [hfills.width_of_ne (by decide), h.width]
  refine (decodeReg_spec rEax false (hdest.symm ▸ h.valid)).mono fun _ s' h' => ?_
  rcases h' with ⟨o', hfills', hshows'⟩
  rcases hfills.both (by decide) hfills' with ⟨hdec, -, ho'⟩
  rw [hdest] at hshows'
  exact ⟨hdec, .reg rEax, ho' ▸ hshows'.unloaded s', trivial⟩

theorem a2O_readies (h : DHelper.a2O.Ready s w) :
    Ensures DHelper.a2O.run s fun _ s' => Readies s 4 w s' := by
  have hplace := h.place _ rfl
  have hin : s.decinfo.seqPc.toNat + 4 ≤ pmemSize := h.inside
  refine (decodeReg_spec rEax true (h.validWidth _)).bind fun _ s₁ h₁ => ?_
  rcases h₁ with ⟨o, hfills, -⟩
  have hdest : (s₁.decinfo.operand .dest).width = w := by
    rw [hfills.width_of_ne (by decide), h.width]
  have hpc := hfills.decoded.toNat_seqPc (by omega)
  have hmap : s₁.bus.pmemMap = registerPmem 0 := hfills.decoded.bus ▸ h.map
  refine (decodeOpO_spec (hdest.symm ▸ h.valid) (fetches_word hmap (by decide) (by omega))
    (fun hl => by cases hl)).mono fun _ s' h' => ?_
  rcases h' with ⟨o', hfills', hshows'⟩
  rcases hfills.both (by decide) hfills' with ⟨hdec, -, ho'⟩
  rw [hdest, hpc, hfills.decoded.bus] at hshows'
  exact ⟨hdec, _, ho' ▸ hshows'.unloaded s', hplace⟩

/-- Every helper but one returns, having fetched as many bytes as its footprint has. -/
theorem DHelper.readies {d : DHelper} (hd : d ≠ .SI2E) (h : d.Ready s w) :
    Ensures d.run s fun _ s' =>
      Readies s (d.size s.bus.pmem s.decinfo.seqPc.toNat w) w s' := by
  cases d with
  | movG2E => exact rm_reg_readies (by decide) (Or.inl rfl) ⟨h.width, h.valid, h.map, h.inside, h.place⟩
  | movE2G => exact rm_reg_readies (by decide) (Or.inr rfl) ⟨h.width, h.valid, h.map, h.inside, h.place⟩
  | I2E => exact immediate_readies true ⟨h.width, h.valid, h.map, h.inside, h.place⟩
  | movI2E => exact immediate_readies false h
  | movI2r => exact movI2r_readies h
  | E => exact rm_readies true h
  | gp7E => exact rm_readies false ⟨h.width, h.valid, h.map, h.inside, h.place⟩
  | SI2E => exact absurd rfl hd
  | gp21E =>
      exact dest_then_src (rm_dest true (h.width _) h.valid h.map h.inside (h.place _ rfl))
        (fun s₁ _ _ => one_src s₁) (Nat.add_zero _) (h.place _ rfl)
  | gp2cl2E =>
      exact dest_then_src (rm_dest true (h.width _) h.valid h.map h.inside (h.place _ rfl))
        (fun s₁ _ _ => cl_src s₁) (Nat.add_zero _) (h.place _ rfl)
  | gp2Ib2E =>
      have hin : s.decinfo.seqPc.toNat + (s.rm.bytes.length + 1) ≤ pmemSize := h.inside
      exact dest_then_src (rm_dest true (h.width _) h.valid h.map (by omega) (h.place _ rfl))
        (fun s₁ _ hfills => byte_src hfills.decoded h.map hin) rfl (h.place _ rfl)
  | O2a => exact O2a_readies h
  | a2O => exact a2O_readies h

end Helpers

end Nemu
