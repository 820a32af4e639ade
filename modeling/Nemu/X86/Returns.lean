import Nemu.X86.Footprint

/-!
# No helper fails

As long as what an instruction touches lies in `pmem`, `isa_exec` returns, whatever bytes stand
there: no helper fails an assertion.  Only the opcode 0x83 is left out, whose helper ends in
`TODO()`.  What `exec_once` can still run into is the end of the trace arrays.
-/

namespace Nemu

open LittleEndian StateRules

/-! ## Opcodes -/

/-- The prefixes and the escape byte from the address on lead to an entry of the opcode table: to
its index, to the address of its operands and to the value of the operand-size flag there. -/
inductive Leads (mem : Nat → Byte) : Bool → Nat → Bool → Nat → Nat → Prop
  | operandSize {b b' : Bool} {a a' op : Nat} (hbyte : mem a = 0x66)
      (hrest : Leads mem true (a + 1) b' a' op) : Leads mem b a b' a' op
  | twoByteEsc {b : Bool} {a : Nat} (hbyte : mem a = 0x0f) :
      Leads mem b a b (a + 2) ((mem (a + 1)).toNat ||| 0x100)
  | opcode {b : Bool} {a : Nat} (hsize : mem a ≠ 0x66) (hesc : mem a ≠ 0x0f) :
      Leads mem b a b (a + 1) (mem a).toNat

/-- The helpers that fetch the message of `exec_inv`: all groups are empty. -/
def EHelper.isInv : EHelper → Bool
  | .inv | .group _ => true
  | _ => false

/-- The bytes that an entry fetches and its memory operand lie in `pmem`; the operands stand at
`a`. -/
structure OpcodeEntry.InPmem (e : OpcodeEntry) (mem : Nat → Byte) (cpu : CPUState) (a w : Nat) :
    Prop where
  opcode : a ≤ pmemSize
  operands : ∀ d, e.decode = some d → a + d.size mem a w ≤ pmemSize
  place : ∀ d p, e.decode = some d → d.place mem cpu a = some p → p.InPmem w
  message : e.execute.isInv = true → cpu.pc.toNat + 8 ≤ pmemSize

/-- The instruction at `pc` is entry `op` of the opcode table. -/
def Machine.Executes (s : Machine) (op : Nat) : Prop :=
  ∃ b a, Leads s.bus.pmem s.decinfo.isOperandSize16 s.cpu.pc.toNat b a op

/-- All bytes that the instruction at `pc` fetches and its memory operand lie in `pmem`. -/
def Machine.StaysInPmem (s : Machine) : Prop :=
  ∃ b a op, Leads s.bus.pmem s.decinfo.isOperandSize16 s.cpu.pc.toNat b a op ∧
    (opcodeTable op).InPmem s.bus.pmem s.cpu a (operandWidth (opcodeTable op).width b)

/-! ## The opcode table -/

theorem or_escape_lt (b : Byte) : b.toNat ||| 0x100 < 512 :=
  Nat.or_lt_two_pow (n := 9) (by omega) (by decide)

/-- The table is never indexed out of range. -/
theorem Leads.lt {mem : Nat → Byte} {b b' : Bool} {a a' op : Nat} (h : Leads mem b a b' a' op) :
    op < 512 := by
  induction h with
  | operandSize _ _ ih => exact ih
  | twoByteEsc _ => exact or_escape_lt _
  | opcode _ _ => omega

theorem Leads.addr_lt {mem : Nat → Byte} {b b' : Bool} {a a' op : Nat}
    (h : Leads mem b a b' a' op) : a < a' := by
  induction h with
  | operandSize _ _ ih => omega
  | twoByteEsc _ => omega
  | opcode _ _ => omega

/-- An instruction does not end with a prefix or the escape byte. -/
theorem Leads.last {mem : Nat → Byte} {b b' : Bool} {a a' op : Nat} (h : Leads mem b a b' a' op) :
    op ≠ 0x66 ∧ op ≠ 0x0f := by
  induction h with
  | operandSize _ _ ih => exact ih
  | @twoByteEsc _ a _ =>
      have hle : 0x100 ≤ (mem (a + 1)).toNat ||| 0x100 := Nat.right_le_or
      omega
  | opcode hsize hesc =>
      exact ⟨fun h => hsize (BitVec.eq_of_toNat_eq h), fun h => hesc (BitVec.eq_of_toNat_eq h)⟩

/-- An instruction is one entry. -/
theorem Leads.unique {mem : Nat → Byte} {b b₁ b₂ : Bool} {a a₁ a₂ op₁ op₂ : Nat}
    (h₁ : Leads mem b a b₁ a₁ op₁) (h₂ : Leads mem b a b₂ a₂ op₂) :
    b₁ = b₂ ∧ a₁ = a₂ ∧ op₁ = op₂ := by
  induction h₁ with
  | operandSize hbyte _ ih =>
      cases h₂ with
      | operandSize _ hrest => exact ih hrest
      | twoByteEsc hesc => exact absurd (hbyte.symm.trans hesc) (by decide)
      | opcode hsize _ => exact absurd hbyte hsize
  | twoByteEsc hbyte =>
      cases h₂ with
      | operandSize hsize _ => exact absurd (hbyte.symm.trans hsize) (by decide)
      | twoByteEsc _ => exact ⟨rfl, rfl, rfl⟩
      | opcode _ hesc => exact absurd hbyte hesc
  | opcode hsize hesc =>
      cases h₂ with
      | operandSize hbyte _ => exact absurd hbyte hsize
      | twoByteEsc hbyte => exact absurd hbyte hesc
      | opcode _ _ => exact ⟨rfl, rfl, rfl⟩

/-- What the table says about an entry. -/
structure TableEntry (op : Nat) (e : OpcodeEntry) : Prop where
  size : e.execute = .operandSize → op = 0x66
  esc : e.execute = .twoByteEsc → op = 0x0f
  todo : e.decode = some .SI2E → op = 0x83
  mov : e.execute = .mov → e.decode ≠ none
  width : e.width = 0 ∨ e.width = 1

theorem opcodeTable_entry (op : Nat) : TableEntry op (opcodeTable op) := by
  unfold opcodeTable
  split <;> constructor <;> simp [ex, idexw, idexEntry, empty]

theorem operandWidth_valid {width : Nat} (h : width = 0 ∨ width = 1) (b : Bool) :
    ValidWidth (operandWidth width b) := by
  rcases h with rfl | rfl
  · cases b
    · exact Or.inr (Or.inr rfl)
    · exact Or.inr (Or.inl rfl)
  · exact Or.inl rfl

/-! ## Execution -/

/-- Two words from `pc` on. -/
theorem execInv_returns {s : Machine} (hmap : s.bus.pmemMap = registerPmem 0)
    (hin : s.cpu.pc.toNat + 8 ≤ pmemSize) : Ensures execInv s fun _ _ => True := by
  have hfetch : Machine.Fetches { s with decinfo := { s.decinfo with seqPc := s.cpu.pc } }
      (bytesOf (load s.bus.pmem s.cpu.pc.toNat 4) 4 ++
        bytesOf (load s.bus.pmem (s.cpu.pc.toNat + 4) 4) 4) := by
    refine ⟨hmap, (holds_bytesOf_load _ _ (by decide)).append_of ?_, ?_⟩
    · rw [length_bytesOf]
      exact holds_bytesOf_load _ _ (by decide)
    · rw [List.length_append, length_bytesOf, length_bytesOf]
      exact hin
  exact (execInv_spec hfetch (length_bytesOf _ _) (length_bytesOf _ _)).mono fun _ _ _ => trivial

/-- What decoding hands to execution. -/
structure Executable (s : Machine) (x : EHelper) : Prop where
  map : s.bus.pmemMap = registerPmem 0
  message : x.isInv = true → s.cpu.pc.toNat + 8 ≤ pmemSize
  dest : x = .mov → ∃ p w, (s.decinfo.operand .dest).Shows s p w false ∧ p.InPmem w ∧ ValidWidth w

theorem execute_returns {s : Machine} {x : EHelper} (h : Executable s x) (hsize : x ≠ .operandSize)
    (hesc : x ≠ .twoByteEsc) (fuel : Nat) :
    Ensures (x.run (idex (fuel + 1))) s fun _ _ => True := by
  cases x with
  | inv => exact execInv_returns h.map (h.message rfl)
  | mov =>
      rcases h.dest rfl with ⟨p, w, hshows, hin, hw⟩
      exact (execMov_spec h.map hw hshows hin).mono fun _ _ _ => trivial
  | nemuTrap => exact (execNemuTrap_spec s).mono fun _ _ _ => trivial
  | operandSize => exact absurd rfl hsize
  | twoByteEsc => exact absurd rfl hesc
  | group g =>
      -- the entry of the group is `EMPTY`
      refine Ensures.step (get_run s) (Ensures.step (pure_run _ s) ?_)
      exact execInv_returns h.map (h.message rfl)

theorem entry_returns {s : Machine} {op : Nat} (hmap : s.bus.pmemMap = registerPmem 0)
    {w : Nat} (hw : ValidWidth w) (hwidth : ∀ o, (s.decinfo.operand o).width = w)
    (hin : (opcodeTable op).InPmem s.bus.pmem s.cpu s.decinfo.seqPc.toNat w) (h83 : op ≠ 0x83)
    (hlast : op ≠ 0x66 ∧ op ≠ 0x0f) (fuel : Nat) :
    Ensures (idex (fuel + 2) (opcodeTable op)) s fun _ _ => True := by
  have htable := opcodeTable_entry op
  have hdecode : Ensures (opcodeTable op).runDecode s fun _ s' =>
      Executable s' (opcodeTable op).execute := by
    unfold OpcodeEntry.runDecode
    cases hd : (opcodeTable op).decode with
    | none =>
        exact Ensures.of_ok (pure_run _ s) ⟨hmap, hin.message, fun hmov => absurd hd (htable.mov hmov)⟩
    | some d =>
        have hready : d.Ready s w := ⟨hwidth, hw, hmap, hin.operands d hd, fun p => hin.place d p hd⟩
        have hne : d ≠ .SI2E := by
          rintro rfl
          exact h83 (htable.todo hd)
        refine (DHelper.readies hne hready).mono fun _ s' h' => ?_
        rcases h'.dest with ⟨p, hshows, hp⟩
        exact ⟨h'.decoded.bus ▸ hmap, fun hinv => h'.decoded.cpu ▸ hin.message hinv,
          fun _ => ⟨p, w, hshows, hp, hw⟩⟩
  refine hdecode.bind fun _ s₁ h₁ => ?_
  exact execute_returns h₁ (fun h => hlast.1 (htable.size h)) (fun h => hlast.2 (htable.esc h)) fuel

/-! ## Prefixes -/

/-- The next byte to fetch is the one at `a`. -/
structure Machine.FetchesAt (s : Machine) (mem : Nat → Byte) (a : Nat) : Prop where
  pmem : s.bus.pmem = mem
  map : s.bus.pmemMap = registerPmem 0
  seqPc : s.decinfo.seqPc.toNat = a

/-- What the fetch of the entry for the byte at `a` leaves. -/
structure EntryFetched (s : Machine) (mem : Nat → Byte) (a op : Nat) (e : OpcodeEntry)
    (s' : Machine) : Prop where
  entry : e = opcodeTable op
  next : s'.FetchesAt mem (a + 1)
  cpu : s'.cpu = s.cpu
  isOperandSize16 : s'.decinfo.isOperandSize16 = s.decinfo.isOperandSize16
  width : ∀ o, (s'.decinfo.operand o).width =
    operandWidth (opcodeTable op).width s.decinfo.isOperandSize16

theorem Machine.FetchesAt.fetchEntry {s : Machine} {mem : Nat → Byte} {a : Nat}
    (h : s.FetchesAt mem a) (hin : a < pmemSize) (escape : Nat) :
    Ensures (fetchEntry escape) s (EntryFetched s mem a ((mem a).toNat ||| escape)) := by
  have hsize : pmemSize = 134217728 := rfl
  rcases h with ⟨rfl, hmap, rfl⟩
  refine (fetchEntry_escape_spec escape ⟨hmap, holds_singleton _ _, hin⟩).mono fun e s' h => ?_
  rcases h with ⟨he, hdec, -, hwidth⟩
  have hnext : s'.FetchesAt s.bus.pmem (s.decinfo.seqPc.toNat + 1) :=
    ⟨congrArg Bus.pmem hdec.bus, hdec.bus ▸ hmap, hdec.toNat_seqPc (by omega)⟩
  exact ⟨he, hnext, hdec.cpu, hdec.isOperandSize16, hwidth⟩

/-- The entry behind the last byte fetched. -/
theorem EntryFetched.returns {s s' : Machine} {mem : Nat → Byte} {a op : Nat} {e : OpcodeEntry}
    (h : EntryFetched s mem a op e s')
    (hin : (opcodeTable op).InPmem mem s.cpu (a + 1)
      (operandWidth (opcodeTable op).width s.decinfo.isOperandSize16))
    (h83 : op ≠ 0x83) (hlast : op ≠ 0x66 ∧ op ≠ 0x0f) (fuel : Nat) :
    Ensures (idex (fuel + 2) e) s' fun _ _ => True := by
  have hw := operandWidth_valid (opcodeTable_entry op).width s.decinfo.isOperandSize16
  rw [h.entry]
  refine entry_returns h.next.map hw h.width ?_ h83 hlast fuel
  rw [h.next.pmem, h.cpu, h.next.seqPc]
  exact hin

/-- By induction on the prefixes. -/
theorem Leads.returns {mem : Nat → Byte} {b b' : Bool} {a a' op : Nat}
    (h : Leads mem b a b' a' op) {s : Machine} {fuel : Nat} (hat : s.FetchesAt mem a)
    (hflag : s.decinfo.isOperandSize16 = b) (hfuel : a' - a + 1 ≤ fuel) (h83 : op ≠ 0x83)
    (hin : (opcodeTable op).InPmem mem s.cpu a' (operandWidth (opcodeTable op).width b')) :
    Ensures (fetchEntry 0 >>= idex fuel) s fun _ _ => True := by
  have hinside := hin.opcode
  induction h generalizing s fuel with
  | @operandSize b b' a a' op hbyte hrest ih =>
      have hlt := hrest.addr_lt
      obtain ⟨fuel, rfl⟩ : ∃ n, fuel = n + 1 := ⟨fuel - 1, by omega⟩
      refine (hat.fetchEntry (by omega) 0).bind fun e s₁ h₁ => ?_
      have hentry : e = opcodeTable 0x66 := by
        rw [h₁.entry, hbyte]
        rfl
      subst hentry
      -- the flag is set for the rest
      refine Ensures.step (pure_run _ s₁) (Ensures.step (modify_run _ s₁) ?_)
      rw [← h₁.cpu] at hin
      rcases @ih { s₁ with decinfo := { s₁.decinfo with isOperandSize16 := true } } fuel
        ⟨h₁.next.pmem, h₁.next.map, h₁.next.seqPc⟩ rfl (by omega) h83 hin hinside with
        ⟨u, s₂, hrun, -⟩
      rcases bind_eq_ok.1 hrun with ⟨e, s₃, hfetch, hidex⟩
      refine Ensures.step hfetch (Ensures.step hidex ?_)
      exact Ensures.of_ok (modify_run _ s₂) trivial
  | @twoByteEsc b a hbyte =>
      obtain ⟨fuel, rfl⟩ : ∃ n, fuel = n + 3 := ⟨fuel - 3, by omega⟩
      refine (hat.fetchEntry (by omega) 0).bind fun e s₁ h₁ => ?_
      have hentry : e = opcodeTable 0x0f := by
        rw [h₁.entry, hbyte]
        rfl
      subst hentry
      refine Ensures.step (pure_run _ s₁) ?_
      refine (h₁.next.fetchEntry (by omega) 0x100).bind fun e s₂ h₂ => ?_
      refine h₂.returns ?_ h83 (Leads.twoByteEsc (b := b) hbyte).last fuel
      rw [h₁.cpu, h₁.isOperandSize16, hflag]
      exact hin
  | @opcode b a hsize hesc =>
      obtain ⟨fuel, rfl⟩ : ∃ n, fuel = n + 2 := ⟨fuel - 2, by omega⟩
      refine (hat.fetchEntry (by omega) 0).bind fun e s₁ h₁ => ?_
      rw [Nat.or_zero] at h₁
      refine h₁.returns ?_ h83 (Leads.opcode (b := b) hsize hesc).last fuel
      rw [hflag]
      exact hin

/-! ## exec_once -/

/-- Behind `isa_exec` the trace is the only thing that can fail. -/
theorem execOnce_of_returns {s : Machine}
    (h : Ensures isaExec { s with decinfo := { s.decinfo with seqPc := s.cpu.pc } } fun _ _ => True) :
    (∃ npc s', execOnce s = .ok npc s') ∨
      ∃ s', execOnce s = .error .bounds s' ∧ s'.trace.fits = false := by
  rcases h with ⟨u, s₁, hisa, -⟩
  have hrun : execOnce s = (updatePc >>= fun _ => checkTrace >>= fun _ => (do
      return (← get).decinfo.seqPc : Exec Word)) s₁ := by
    rw [execOnce, bind_ok (get_run s)]
    exact (bind_ok (modify_run _ s)).trans (bind_ok hisa)
  rw [hrun, updatePc, bind_ok (modify_run _ s₁)]
  generalize (if s₁.decinfo.isJmp then _ else _ : Machine) = s₂
  cases hfits : s₂.trace.fits with
  | true =>
      rw [bind_ok (checkTrace_eq_ok.2 ⟨rfl, hfits⟩ : checkTrace s₂ = .ok ⟨⟩ s₂)]
      exact .inl ⟨_, _, rfl⟩
  | false =>
      have hcheck : checkTrace s₂ = .error .bounds s₂ := by
        rw [checkTrace, hfits]
        rfl
      exact .inr ⟨s₂, bind_error hcheck, hfits⟩

/-- No assertion of the decode helpers or of the register accesses fails, and no table is indexed
behind its end: `isa_exec` returns for every machine whose instruction touches `pmem` only and is not
0x83, and so does `exec_once`, unless the trace arrays are too short. -/
theorem execOnce_returns {s : Machine} (hmap : s.bus.pmemMap = registerPmem 0)
    (hin : s.StaysInPmem) (h83 : ¬ s.Executes 0x83) :
    (∃ u s', isaExec { s with decinfo := { s.decinfo with seqPc := s.cpu.pc } } = .ok u s') ∧
    ((∃ npc s', execOnce s = .ok npc s') ∨
      ∃ s', execOnce s = .error .bounds s' ∧ s'.trace.fits = false) ∧
    ∀ op, s.Executes op → op < 512 := by
  rcases hin with ⟨b, a, op, hleads, hentry⟩
  have hne : op ≠ 0x83 := by
    rintro rfl
    exact h83 ⟨b, a, hleads⟩
  have hfuel : a - s.cpu.pc.toNat + 1 ≤ idexFuel := by
    have hsize : pmemSize = 134217728 := rfl
    have hinside := hentry.opcode
    unfold idexFuel
    omega
  have hisa : Ensures isaExec { s with decinfo := { s.decinfo with seqPc := s.cpu.pc } }
      fun _ _ => True := hleads.returns ⟨rfl, hmap, rfl⟩ rfl hfuel hne hentry
  refine ⟨?_, execOnce_of_returns hisa, fun op ⟨b, a, h⟩ => h.lt⟩
  rcases hisa with ⟨u, s', hrun, -⟩
  exact ⟨u, s', hrun⟩

/-- `66 8b 4c 24 02` at address 0. -/
theorem execOnce_returns_load :
    let s := (Mov.rmToReg false ⟨0x4c, 0x24, 2⟩).loaded 1
    (∃ u s', isaExec { s with decinfo := { s.decinfo with seqPc := s.cpu.pc } } = .ok u s') ∧
    ((∃ npc s', execOnce s = .ok npc s') ∨
      ∃ s', execOnce s = .error .bounds s' ∧ s'.trace.fits = false) ∧
    ∀ op, s.Executes op → op < 512 := by
  intro s
  have hleads : Leads s.bus.pmem false 0 true 2 0x8b :=
    .operandSize (by decide) (.opcode (b := true) (a := 1) (by decide) (by decide))
  have hentry : (opcodeTable 0x8b).InPmem s.bus.pmem s.cpu 2 2 := by
    refine ⟨by decide, fun d hd => ?_, fun d p hd hp => ?_, fun h => by cases h⟩
    · cases hd
      decide
    · cases hd
      cases hp
      have hplace : (RM.ofMem s.bus.pmem 2).place s.cpu = .mem 2 := by decide
      have hinside : (2 : Word).toNat + 2 ≤ pmemSize := by decide
      rw [hplace]
      exact hinside
  refine execOnce_returns rfl ⟨true, 2, 0x8b, hleads, hentry⟩ fun ⟨b, a, h⟩ => ?_
  exact absurd (hleads.unique h).2.2 (by decide)

end Nemu
