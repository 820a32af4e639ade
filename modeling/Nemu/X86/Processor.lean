import Mathlib.Tactic.IntervalCases
import Nemu.X86.MovOnce
import Nemu.X86.Special

/-!
# A processor that knows mov

The registers and the memory of an i386 as bytes, and the programs that consist of `mov`
instructions and end in `nemu_trap` or in an opcode without an entry.  `exec_once` does to the machine
what an instruction does to the processor.
-/

namespace Nemu

open LittleEndian StateRules

/-! ## States -/

structure Processor where
  cpu : CPUState
  pmem : Nat → Byte

namespace Processor

def byteAt (p : Processor) : ByteLoc → Byte
  | .reg i k => byteOf (p.cpu.gpr i) k
  | .mem a => p.pmem a

def ofBytes (f : ByteLoc → Byte) (pc : Word) : Processor where
  cpu := { gpr := fun i => load (fun k => f (.reg i ⟨k % 4, mod_four_lt_four k⟩)) 0 4, pc }
  pmem a := f (.mem a)

@[simp] theorem byteAt_ofBytes (f : ByteLoc → Byte) (pc : Word) (b : ByteLoc) :
    (ofBytes f pc).byteAt b = f b := by
  cases b with
  | reg i k =>
      have hk : (⟨k.val % 4, mod_four_lt_four k⟩ : Fin 4) = k := Fin.ext (Nat.mod_eq_of_lt k.isLt)
      change byteOf (load (fun k => f (.reg i ⟨k % 4, mod_four_lt_four k⟩)) 0 4) k = _
      rw [byteOf_load _ _ _ _ k.isLt, if_pos k.isLt, Nat.zero_add, hk]
  | mem a => rfl

/-- There is nothing else in it. -/
theorem eq_of_byteAt {p q : Processor} (hpc : p.cpu.pc = q.cpu.pc)
    (h : ∀ b, p.byteAt b = q.byteAt b) : p = q := by
  rcases p with ⟨⟨gpr, pc⟩, pmem⟩
  rcases q with ⟨⟨gpr', pc'⟩, pmem'⟩
  have hgpr : gpr = gpr' := by
    funext i
    exact eq_of_byteOf fun k hk => h (.reg i ⟨k, hk⟩)
  have hpmem : pmem = pmem' := funext fun a => h (.mem a)
  cases hpc
  rw [hgpr, hpmem]

/-- The processor goes on behind `n` bytes. -/
def skip (p : Processor) (n : Nat) : Processor :=
  { p with cpu := { p.cpu with pc := p.cpu.pc + BitVec.ofNat 32 n } }

end Processor

def Machine.processor (s : Machine) : Processor := ⟨s.cpu, s.bus.pmem⟩

/-! ## Instructions -/

def Source.byteIn (src : Source) (p : Processor) (width j : Nat) : Byte :=
  match src with
  | .place q => p.byteAt (q.byteLoc width j)
  | .const v => byteOf v j

theorem Source.byteIn_processor (src : Source) (s : Machine) (width j : Nat) :
    src.byteIn s.processor width j = src.byte s width j := by
  cases src with
  | place q =>
      change s.processor.byteAt (q.byteLoc width j) = s.byteAt (q.byteLoc width j)
      cases q.byteLoc width j <;> rfl
  | const v => rfl

/-- The byte of the operand that goes to `b`. -/
def Mov.goesTo (i : Mov) (k : Nat) (cpu : CPUState) (b : ByteLoc) : Option Nat :=
  (List.range (i.width k)).find? fun j => b = (i.dest cpu).byteLoc (i.width k) j

/-- The instruction with `k` prefixes. -/
def Mov.exec (i : Mov) (k : Nat) (p : Processor) : Processor :=
  .ofBytes
    (fun b =>
      match i.goesTo k p.cpu b with
      | some j => (i.source p.cpu).byteIn p (i.width k) j
      | none => p.byteAt b)
    (p.cpu.pc + BitVec.ofNat 32 (i.encode k).length)

/-- A state with the right bytes is the one behind the instruction. -/
theorem Mov.exec_eq {i : Mov} {k : Nat} {p p' : Processor}
    (hwritten : ∀ j < i.width k,
      p'.byteAt ((i.dest p.cpu).byteLoc (i.width k) j) = (i.source p.cpu).byteIn p (i.width k) j)
    (hothers : ∀ b, (∀ j < i.width k, b ≠ (i.dest p.cpu).byteLoc (i.width k) j) →
      p'.byteAt b = p.byteAt b)
    (hpc : p'.cpu.pc = p.cpu.pc + BitVec.ofNat 32 (i.encode k).length) : p' = i.exec k p := by
  refine Processor.eq_of_byteAt hpc fun b => ?_
  rw [exec, Processor.byteAt_ofBytes]
  cases hgoes : i.goesTo k p.cpu b with
  | some j =>
      have hb : b = (i.dest p.cpu).byteLoc (i.width k) j := by
        simpa using List.find?_some hgoes
      have hj : j < i.width k := List.mem_range.1 (List.mem_of_find?_eq_some hgoes)
      dsimp only
      rw [hb]
      exact hwritten j hj
  | none =>
      refine hothers b fun j hj heq => ?_
      exact List.find?_eq_none.1 hgoes j (List.mem_range.2 hj) (decide_eq_true heq)

/-- A `mov` that lies in memory with its operands, and whose bytes the trace has room for. -/
inductive Processor.Instructs : Processor → Processor → Prop
  | mov {p : Processor} (i : Mov) (k : Nat) (hlen : (i.encode k).length ≤ 26)
      (hcode : Holds p.pmem p.cpu.pc.toNat (i.encode k))
      (hin : p.cpu.pc.toNat + (i.encode k).length ≤ pmemSize)
      (hsrc : (i.source p.cpu).InPmem (i.width k)) (hdest : (i.dest p.cpu).InPmem (i.width k)) :
      Instructs p (i.exec k p)

/-- What ends a program, with the run state behind it. -/
inductive Processor.Ends : Processor → NEMUState → Processor → Prop
  | trap {p : Processor} (hcode : p.pmem p.cpu.pc.toNat = 0xd6) (hin : p.cpu.pc.toNat < pmemSize) :
      Ends p ⟨.nemuEnd, p.cpu.pc, p.cpu.eax⟩ (p.skip 1)
  | invalid {p : Processor} (hempty : opcodeTable (p.pmem p.cpu.pc.toNat).toNat = empty)
      (hin : p.cpu.pc.toNat + 8 ≤ pmemSize) :
      Ends p ⟨.nemuAbort, p.cpu.pc, -1⟩ (p.skip 8)

/-! ## exec_once -/

theorem Mov.Executes.processor {i : Mov} {s s₁ : Machine} {k : Nat}
    (h : i.Executes { s with decinfo := { s.decinfo with seqPc := s.cpu.pc } } k (i.width k) s₁) :
    s₁.stepped.processor = i.exec k s.processor := by
  have hbytes : ∀ b, s₁.stepped.processor.byteAt b = s₁.byteAt b := by
    intro b
    cases b <;> rfl
  refine Mov.exec_eq (fun j hj => ?_) (fun b hb => ?_) ?_
  · rw [hbytes, Source.byteIn_processor]
    exact (h.written j hj).trans (Source.byte_congr rfl rfl _ _ _)
  · rw [hbytes]
    refine (h.others b hb).trans ?_
    cases b <;> rfl
  · rw [i.length_encode]
    exact h.seqPc

theorem Processor.Instructs.execOnce {s : Machine} {p : Processor} (hs : s.Boundary)
    (htrace : s.trace.Cleared) (h : Processor.Instructs s.processor p) :
    ∃ npc s', Nemu.execOnce s = .ok npc s' ∧ s'.processor = p ∧ s'.nemuState = s.nemuState ∧
      s'.bus = { s.bus with pmem := s'.bus.pmem } := by
  generalize hq : s.processor = q at h
  cases h with
  | mov i k hlen hcode hin hsrc hdest =>
      subst hq
      rcases execOnce_executes hs htrace hcode hin hsrc hdest with ⟨s₁, hexec, hrun⟩
      rw [if_pos hlen] at hrun
      exact ⟨_, _, hrun, hexec.processor, hexec.nemuState, hexec.bus⟩

/-- Eight bytes, as the message of `exec_inv` fetches them. -/
theorem holds_eight (mem : Nat → Byte) (a : Nat) :
    Holds mem a (mem a :: [mem (a + 1), mem (a + 2), mem (a + 3)] ++
      [mem (a + 4), mem (a + 5), mem (a + 6), mem (a + 7)]) := by
  intro j hj
  change j < 8 at hj
  interval_cases j <;> rfl

theorem Processor.Ends.execOnce {s : Machine} {state : NEMUState} {p : Processor} (hs : s.Boundary)
    (htrace : s.Printed) (h : Processor.Ends s.processor state p) :
    ∃ npc s', Nemu.execOnce s = .ok npc s' ∧ s'.processor = p ∧ s'.nemuState = state := by
  generalize hq : s.processor = q at h
  cases h with
  | trap hcode hin =>
      subst hq
      rcases execOnce_nemuTrap hs htrace hcode hin with ⟨npc, s', hrun, hstate, hcpu, hbus⟩
      refine ⟨npc, s', hrun, ?_, hstate⟩
      rw [Machine.processor, hcpu, hbus]
      rfl
  | invalid hempty hin =>
      subst hq
      rcases execOnce_inv hs htrace hempty rfl rfl (holds_eight s.bus.pmem s.cpu.pc.toNat) hin with
        ⟨npc, s', hrun, hstate, hcpu, hbus⟩
      refine ⟨npc, s', hrun, ?_, hstate⟩
      rw [Machine.processor, hcpu, hbus]
      rfl

end Nemu
