import Mathlib.Algebra.Group.Nat.Defs
import Nemu.Common
import Nemu.Lib.History

/-!
# The ramdisk

`src/ramdisk.c` of nanos-lite.  The memory is a function of the distance from `ramdisk_start`,
modulo 2^w as pointers and `size_t` are, so that the disk is what lies below `RAMDISK_SIZE` and
the rest of the memory is everything else.  The buffers of the callers are not in this memory.
-/

namespace Nemu

open History StateRules

namespace Ramdisk

variable {w : Nat}

/-! ## The functions -/

abbrev OnMemory (w : Nat) := EStateM Fault (BitVec w → Byte)

/-- `ramdisk_read(buf, offset, len)`: what is copied to `buf`, and the result. -/
def ramdiskRead (ramdiskSize offset len : BitVec w) : OnMemory w (List Byte × BitVec w) := do
  cAssert (decide (offset + len ≤ ramdiskSize))
  let memory ← get
  return ((List.range len.toNat).map fun i => memory (offset + BitVec.ofNat w i), len)

/-- `ramdisk_write(buf, offset, len)` -/
def ramdiskWrite (ramdiskSize : BitVec w) (buf : Nat → Byte) (offset len : BitVec w) :
    OnMemory w (BitVec w) := do
  cAssert (decide (offset + len ≤ ramdiskSize))
  modify fun memory a =>
    if (a - offset).toNat < len.toNat then buf (a - offset).toNat else memory a
  return len

/-! ## Sequences of calls -/

inductive Call (w : Nat) where
  | read (offset len : BitVec w)
  | write (buf : Nat → Byte) (offset len : BitVec w)

namespace Call

def offset : Call w → BitVec w
  | read offset _ | write _ offset _ => offset

def len : Call w → BitVec w
  | read _ len | write _ _ len => len

/-- The copy of the call reads or writes the byte at `a`. -/
def Touches (c : Call w) (a : BitVec w) : Prop := (a - c.offset).toNat < c.len.toNat

/-- What the call writes. -/
def writes : Call w → List (Write (BitVec w) Byte)
  | read _ _ => []
  | write buf offset len =>
      [{ covers := fun a => decide ((a - offset).toNat < len.toNat)
         value := fun a => buf (a - offset).toNat }]

/-- The bytes that a read puts into its buffer. -/
def run (ramdiskSize : BitVec w) : Call w → OnMemory w (List (List Byte))
  | read offset len => do
      let (buf, _) ← ramdiskRead ramdiskSize offset len
      return [buf]
  | write buf offset len => do
      let _ ← ramdiskWrite ramdiskSize buf offset len
      return []

/-- The bytes that a read should find, in a memory with this content. -/
def finds (content : BitVec w → Byte) : Call w → List (List Byte)
  | read offset len => [(List.range len.toNat).map fun i => content (offset + BitVec.ofNat w i)]
  | write _ _ _ => []

end Call

/-- Calls one after the other, with what the reads have put into their buffers. -/
def runCalls (ramdiskSize : BitVec w) : List (Call w) → OnMemory w (List (List Byte))
  | [] => return []
  | c :: calls => do
      let bufs ← c.run ramdiskSize
      let rest ← runCalls ramdiskSize calls
      return bufs ++ rest

/-- What the reads of a sequence should find: at each place the byte that was last written to it,
or its initial content.  `hist` are the writes so far. -/
def findsLatest (initial : BitVec w → Byte) :
    List (Write (BitVec w) Byte) → List (Call w) → List (List Byte)
  | _, [] => []
  | hist, c :: calls =>
      c.finds (latest initial hist) ++ findsLatest initial (hist ++ c.writes) calls

/-! ## Histories -/

section History

variable {size : BitVec w} {initial : BitVec w → Byte} {hist : List (Write (BitVec w) Byte)}

theorem run_ok {c : Call w} {memory memory' : BitVec w → Byte} {bufs : List (List Byte)}
    (h : c.run size memory = .ok bufs memory') :
    c.offset + c.len ≤ size ∧ bufs = c.finds memory ∧ memory' = latest memory c.writes := by
  cases c with
  | read offset len =>
      rcases bind_eq_ok.1 h with ⟨_, _, hread, hpure⟩
      rcases bind_eq_ok.1 hread with ⟨_, _, hassert, hcopy⟩
      rcases cAssert_eq_ok.1 hassert with ⟨hle, rfl⟩
      cases hcopy
      cases hpure
      exact ⟨of_decide_eq_true hle, rfl, rfl⟩
  | write buf offset len =>
      rcases bind_eq_ok.1 h with ⟨_, _, hwrite, hpure⟩
      rcases bind_eq_ok.1 hwrite with ⟨_, _, hassert, hcopy⟩
      rcases cAssert_eq_ok.1 hassert with ⟨hle, rfl⟩
      cases hcopy
      cases hpure
      refine ⟨of_decide_eq_true hle, rfl, ?_⟩
      rw [Call.writes, latest_cons, latest_nil]
      funext a
      simp only [Write.apply, decide_eq_true_eq]

/-- By induction on the calls, from a memory with any history. -/
theorem runCalls_ok {calls : List (Call w)} {memory' : BitVec w → Byte}
    {bufs : List (List Byte)} (h : runCalls size calls (latest initial hist) = .ok bufs memory') :
    (∀ c ∈ calls, c.offset + c.len ≤ size) ∧ bufs = findsLatest initial hist calls ∧
      memory' = latest initial (hist ++ calls.flatMap Call.writes) := by
  induction calls generalizing hist bufs with
  | nil =>
      cases h
      exact ⟨by simp, rfl, by simp⟩
  | cons c calls ih =>
      rcases bind_eq_ok.1 h with ⟨first, memory₁, hone, h₁⟩
      rcases bind_eq_ok.1 h₁ with ⟨rest, memory₂, hrest, hpure⟩
      cases hpure
      rcases run_ok hone with ⟨hle, rfl, rfl⟩
      rw [← latest_append] at hrest
      rcases ih hrest with ⟨hall, rfl, rfl⟩
      refine ⟨List.forall_mem_cons.2 ⟨hle, hall⟩, rfl, ?_⟩
      rw [List.flatMap_cons, List.append_assoc]

end History

/-! ## The disk -/

section Disk

variable {size : BitVec w} {calls : List (Call w)}

/-- The assertion compares a sum that may have wrapped around. -/
theorem touches_inside_iff {c : Call w} (hle : c.offset + c.len ≤ size) :
    (∀ a, c.Touches a → a < size) ↔ c.offset.toNat + c.len.toNat < 2 ^ w := by
  have hoffset := c.offset.isLt
  constructor
  · intro h
    by_contra hwraps
    -- a copy that wraps around touches the last byte of the address space
    have hlast : c.Touches (BitVec.allOnes w) := by
      rw [Call.Touches, BitVec.allOnes_sub_eq_not, BitVec.toNat_not]
      omega
    have hsize := BitVec.lt_def.1 (h _ hlast)
    have hlt := size.isLt
    rw [BitVec.toNat_allOnes] at hsize
    omega
  · intro hfits a ha
    have hsum : c.offset.toNat + c.len.toNat ≤ size.toNat := by
      rw [← BitVec.toNat_add_of_lt hfits]
      exact BitVec.le_def.1 hle
    have hplace : a.toNat = (a - c.offset).toNat + c.offset.toNat := by
      rw [Call.Touches] at ha
      rw [← BitVec.toNat_add_of_lt (by omega), BitVec.sub_add_cancel]
    rw [Call.Touches] at ha
    rw [BitVec.lt_def]
    omega

/-- What a sequence of accesses owes to the disk and to the rest of the memory. -/
structure KeepsDisk (size : BitVec w) (initial : BitVec w → Byte) (calls : List (Call w))
    (bufs : List (List Byte)) (memory : BitVec w → Byte) : Prop where
  touched : ∀ c ∈ calls, ∀ a, c.Touches a → a < size
  found : bufs = findsLatest initial [] calls
  frame : ∀ a, (∀ c ∈ calls, ∀ u ∈ c.writes, ¬ u.covers a) → memory a = initial a

/-- Every sequence of calls that pass their assertions: reads find what was last written, and
nothing else changes; all accesses are on the disk if and only if no `offset + len` wraps
around. -/
theorem ramdisk_keepsDisk_iff {initial memory : BitVec w → Byte} {bufs : List (List Byte)}
    (hrun : runCalls size calls initial = .ok bufs memory) :
    KeepsDisk size initial calls bufs memory ↔
      ∀ c ∈ calls, c.offset.toNat + c.len.toNat < 2 ^ w := by
  have hstart : runCalls size calls (latest initial []) = .ok bufs memory := hrun
  rcases runCalls_ok hstart with ⟨hle, hfound, hmemory⟩
  constructor
  · exact fun h c hc => (touches_inside_iff (hle c hc)).1 (h.touched c hc)
  · intro h
    refine ⟨fun c hc => (touches_inside_iff (hle c hc)).2 (h c hc), hfound, fun a ha => ?_⟩
    rw [hmemory, List.nil_append]
    refine latest_of_not_covered (fun u hu => ?_) initial
    rcases List.mem_flatMap.1 hu with ⟨c, hc, hmem⟩
    exact ha c hc u hmem

/-- Eight bytes written into a disk of 16, and some of them read. -/
theorem ramdisk_keepsDisk_iff_overlap :
    ∃ bufs memory, runCalls (16 : BitVec 64)
        [.write (fun i => BitVec.ofNat 8 i) 4 8, .read 8 2] (fun _ => 0) = .ok bufs memory ∧
      bufs = [[4, 5]] ∧
      KeepsDisk 16 (fun _ => 0) [.write (fun i => BitVec.ofNat 8 i) 4 8, .read 8 2] bufs memory := by
  refine ⟨_, _, rfl, by decide, (ramdisk_keepsDisk_iff rfl).2 ?_⟩
  simp only [List.forall_mem_cons]
  exact ⟨by decide, by decide, by simp⟩

/-- An offset in front of the disk: the sum wraps around and passes the assertion. -/
theorem ramdisk_wraps :
    ¬ ∀ (size : BitVec 64) (initial memory : BitVec 64 → Byte) (calls : List (Call 64))
      (bufs : List (List Byte)), runCalls size calls initial = .ok bufs memory →
        KeepsDisk size initial calls bufs memory := by
  intro h
  have hkeeps := h 16 (fun _ => 0) _ [.read 0xfffffffffffffffc 8] _ rfl
  have htouches : (Call.read 0xfffffffffffffffc 8 : Call 64).Touches 0xfffffffffffffffc := by
    unfold Call.Touches
    decide
  exact absurd (hkeeps.touched _ List.mem_cons_self _ htouches) (by decide)

end Disk

end Ramdisk

end Nemu
