import Mathlib.Algebra.BigOperators.Group.List.Basic
import Mathlib.Algebra.Order.Ring.Nat
import Nemu.Common
import Nemu.Lib.Regions

/-!
# Physical pages

`src/mm.c` of nanos-lite, on pointers of `w` bits.  Nothing is ever given back: the pages are regions
behind the pointer `pf`, which the assertion of `new_page` keeps below the end of the heap.
-/

namespace Nemu

open Regions StateRules

namespace PageAllocator

variable {w : Nat}

/-! ## The functions -/

/-- `PGSIZE` -/
def pgsize : Nat := 4096

/-- `PGMASK` -/
def pgmask (w : Nat) : BitVec w := BitVec.ofNat w (pgsize - 1)

def pgroundup (sz : BitVec w) : BitVec w :=
  (sz + BitVec.ofNat w pgsize - BitVec.ofNat w 1) &&& ~~~pgmask w

/-- The state is the pointer `pf`. -/
abbrev OnPf (w : Nat) := EStateM Fault (BitVec w)

section Heap

-- `_heap` of the abstract machine
variable (heapStart heapEnd : BitVec w)

def newPage (nrPage : BitVec w) : OnPf w (BitVec w) := do
  let p ← get
  modify fun pf => pf + BitVec.ofNat w pgsize * nrPage
  cAssert (decide ((← get) < heapEnd))
  return p

/-- `init_mm` up to `_vme_init`. -/
def initMm : OnPf w Unit := set (pgroundup heapStart)

/-- Calls of `new_page` one after the other, with what each of them returns. -/
def newPages : List (BitVec w) → OnPf w (List (Region Nat))
  | [] => return []
  | nrPage :: nrPages => do
      let p ← newPage heapEnd nrPage
      let rest ← newPages nrPages
      return ⟨p.toNat, pgsize * nrPage.toNat⟩ :: rest

end Heap

/-! ## Rounding -/

/-- `n` rounded up to whole pages. -/
def roundUp (n : Nat) : Nat := (n + (pgsize - 1)) / pgsize * pgsize

theorem and_not_pgmask (x : BitVec w) : x &&& ~~~pgmask w = x >>> 12 <<< 12 := by
  apply BitVec.eq_of_getLsbD_eq
  intro i hi
  have hmask : (pgmask w).getLsbD i = decide (i < 12) := by
    have hnat : pgsize - 1 = 2 ^ 12 - 1 := rfl
    rw [pgmask, BitVec.getLsbD_ofNat, hnat, Nat.testBit_two_pow_sub_one, decide_eq_true hi,
      Bool.true_and]
  rw [BitVec.getLsbD_and, BitVec.getLsbD_not, hmask, BitVec.getLsbD_shiftLeft,
    BitVec.getLsbD_ushiftRight]
  by_cases hlow : i < 12
  · simp [hlow]
  · have hsum : 12 + (i - 12) = i := by omega
    simp [hlow, hi, hsum]

theorem toNat_pgroundup (hw : 13 ≤ w) {sz : BitVec w} (h : sz.toNat + (pgsize - 1) < 2 ^ w) :
    (pgroundup sz).toNat = roundUp sz.toNat := by
  have hpow : 2 ^ 13 ≤ 2 ^ w := Nat.pow_le_pow_right (by decide) hw
  have hsize : pgsize = 4096 := rfl
  have hsum : (sz + BitVec.ofNat w pgsize - BitVec.ofNat w 1).toNat = sz.toNat + (pgsize - 1) := by
    rw [BitVec.toNat_sub, BitVec.toNat_add, BitVec.toNat_ofNat, BitVec.toNat_ofNat, hsize,
      Nat.mod_eq_of_lt (by omega : 4096 < 2 ^ w), Nat.mod_eq_of_lt (by omega : 1 < 2 ^ w)]
    -- the sum may wrap, and the difference brings it back
    rw [hsize] at h
    rcases Nat.lt_or_ge (sz.toNat + 4096) (2 ^ w) with hlt | hge
    · rw [Nat.mod_eq_of_lt hlt, show 2 ^ w - 1 + (sz.toNat + 4096) = sz.toNat + 4095 + 2 ^ w by omega,
        Nat.add_mod_right, Nat.mod_eq_of_lt h]
    · have hfull : sz.toNat + 4096 = 2 ^ w := by omega
      rw [hfull, Nat.mod_self, Nat.add_zero, Nat.mod_eq_of_lt (by omega)]
      omega
  have hlt : (sz.toNat + (pgsize - 1)) / pgsize * pgsize < 2 ^ w :=
    Nat.lt_of_le_of_lt (Nat.div_mul_le_self _ _) h
  rw [pgroundup, and_not_pgmask, BitVec.toNat_shiftLeft, BitVec.toNat_ushiftRight, hsum,
    Nat.shiftRight_eq_div_pow, Nat.shiftLeft_eq]
  exact Nat.mod_eq_of_lt hlt

/-! ## One call -/

section Call

variable {heapEnd pf : BitVec w} {nrPage : BitVec w} {nrPages : List (BitVec w)}
  {rs : List (Region Nat)} {pf' : BitVec w}

/-- The pointer behind a call. -/
def bump (pf nrPage : BitVec w) : BitVec w := pf + BitVec.ofNat w pgsize * nrPage

theorem toNat_bump (pf nrPage : BitVec w) :
    (bump pf nrPage).toNat = (pf.toNat + pgsize * nrPage.toNat) % 2 ^ w := by
  rw [bump, BitVec.toNat_add, BitVec.toNat_mul, BitVec.toNat_ofNat, Nat.mod_mul_mod,
    Nat.add_mod_mod]

theorem newPage_run (heapEnd pf nrPage : BitVec w) :
    newPage heapEnd nrPage pf =
      if bump pf nrPage < heapEnd then .ok pf (bump pf nrPage)
      else .error .abort (bump pf nrPage) := by
  have hassert : newPage heapEnd nrPage pf =
      (do
        cAssert (decide (bump pf nrPage < heapEnd))
        return pf : OnPf w (BitVec w)) (bump pf nrPage) := by
    rw [newPage, bind_ok (get_run pf), bind_ok (modify_run _ pf), bind_ok (get_run _)]
    rfl
  rw [hassert]
  by_cases hlt : bump pf nrPage < heapEnd
  · rw [if_pos hlt, decide_eq_true hlt]
    rfl
  · rw [if_neg hlt, decide_eq_false hlt]
    rfl

/-- A call that returns, and the calls behind it. -/
theorem newPages_cons (h : newPages heapEnd (nrPage :: nrPages) pf = .ok rs pf') :
    bump pf nrPage < heapEnd ∧ ∃ rest, newPages heapEnd nrPages (bump pf nrPage) = .ok rest pf' ∧
      rs = ⟨pf.toNat, pgsize * nrPage.toNat⟩ :: rest := by
  rcases bind_eq_ok.1 h with ⟨p, pf₁, hcall, hrest⟩
  rw [newPage_run] at hcall
  split at hcall
  case isTrue hlt =>
    cases hcall
    rcases bind_eq_ok.1 hrest with ⟨rest, pf₂, hrest', hret⟩
    cases hret
    exact ⟨hlt, rest, hrest', rfl⟩
  case isFalse => cases hcall

end Call

/-! ## Runs -/

section Run

variable {heapStart heapEnd pf pf' : BitVec w} {nrPages : List (BitVec w)} {rs : List (Region Nat)}

/-- The number of bytes that are asked for. -/
def asked (nrPages : List (BitVec w)) : Nat := pgsize * (nrPages.map BitVec.toNat).sum

theorem asked_cons (nrPage : BitVec w) (nrPages : List (BitVec w)) :
    asked (nrPage :: nrPages) = pgsize * nrPage.toNat + asked nrPages := by
  rw [asked, List.map_cons, List.sum_cons, Nat.mul_add]
  rfl

/-- Without a wrap the pointer moves by what is asked for. -/
theorem toNat_bump_of_lt {nrPage : BitVec w} (h : pf.toNat + asked (nrPage :: nrPages) < 2 ^ w) :
    (bump pf nrPage).toNat = pf.toNat + pgsize * nrPage.toNat := by
  rw [asked_cons] at h
  rw [toNat_bump, Nat.mod_eq_of_lt (by omega)]

/-- Regions behind the pointer, below the end of the heap. -/
structure Handed (heapEnd pf : BitVec w) (rs : List (Region Nat)) (pf' : BitVec w) : Prop where
  bumps : Bumps pf.toNat rs pf'.toNat
  below : ∀ r ∈ rs, r.base + r.size < heapEnd.toNat
  aligned : pgsize ∣ pf.toNat → ∀ r ∈ rs, pgsize ∣ r.base

theorem newPages_handed (h : newPages heapEnd nrPages pf = .ok rs pf')
    (hwrap : pf.toNat + asked nrPages < 2 ^ w) : Handed heapEnd pf rs pf' := by
  induction nrPages generalizing pf rs with
  | nil =>
      cases h
      exact ⟨.nil _, fun r hr => (by cases hr), fun _ r hr => by cases hr⟩
  | cons nrPage nrPages ih =>
      rcases newPages_cons h with ⟨hlt, rest, hrest, rfl⟩
      have hbump := toNat_bump_of_lt hwrap
      rw [asked_cons] at hwrap
      have hall := ih hrest (by omega)
      refine ⟨.cons rfl (by omega) (Nat.le_of_eq hbump.symm) hall.bumps, fun r hr => ?_,
        fun hpf r hr => ?_⟩
      · rcases List.mem_cons.1 hr with rfl | hmem
        · rw [← hbump]
          exact BitVec.lt_def.1 hlt
        · exact hall.below r hmem
      · rcases List.mem_cons.1 hr with rfl | hmem
        · exact hpf
        · refine hall.aligned ?_ r hmem
          rw [hbump]
          exact Nat.dvd_add hpf (Nat.dvd_mul_right _ _)

/-- As long as every region ends in the heap, the pointer has not wrapped. -/
theorem lt_of_below (h : newPages heapEnd nrPages pf = .ok rs pf')
    (hbelow : ∀ r ∈ rs, r.base + r.size ≤ heapEnd.toNat) : pf.toNat + asked nrPages < 2 ^ w := by
  induction nrPages generalizing pf rs with
  | nil => exact pf.isLt
  | cons nrPage nrPages ih =>
      rcases newPages_cons h with ⟨-, rest, hrest, rfl⟩
      have hfirst : pf.toNat + pgsize * nrPage.toNat ≤ heapEnd.toNat := hbelow _ List.mem_cons_self
      have hend := heapEnd.isLt
      have hbump : (bump pf nrPage).toNat = pf.toNat + pgsize * nrPage.toNat := by
        rw [toNat_bump, Nat.mod_eq_of_lt (by omega)]
      have htail := ih hrest fun r hr => hbelow r (List.mem_cons_of_mem _ hr)
      rw [asked_cons]
      omega

/-- The calls return as long as there is room, and one byte more. -/
theorem newPages_ok_iff (hwrap : pf.toNat + asked nrPages < 2 ^ w) :
    (∃ rs pf', newPages heapEnd nrPages pf = .ok rs pf') ↔
      nrPages = [] ∨ pf.toNat + asked nrPages < heapEnd.toNat := by
  induction nrPages generalizing pf with
  | nil => exact ⟨fun _ => .inl rfl, fun _ => ⟨_, _, rfl⟩⟩
  | cons nrPage nrPages ih =>
      have hbump := toNat_bump_of_lt hwrap
      have hsum : pf.toNat + asked (nrPage :: nrPages) = (bump pf nrPage).toNat + asked nrPages := by
        rw [asked_cons, hbump, Nat.add_assoc]
      rw [hsum] at hwrap ⊢
      have hih := ih hwrap
      constructor
      · rintro ⟨rs, pf', hrun⟩
        rcases newPages_cons hrun with ⟨hlt, rest, hrest, rfl⟩
        rcases hih.1 ⟨rest, pf', hrest⟩ with rfl | hroom
        · exact .inr (BitVec.lt_def.1 hlt)
        · exact .inr hroom
      · rintro (hnil | hroom)
        · cases hnil
        · have hlt : bump pf nrPage < heapEnd := BitVec.lt_def.2 (by omega)
          rcases hih.2 (.inr hroom) with ⟨rest, pf', hrest⟩
          have hcall : newPage heapEnd nrPage pf = .ok pf (bump pf nrPage) := by
            rw [newPage_run, if_pos hlt]
          exact ⟨_, pf', (bind_ok hcall).trans (bind_ok hrest)⟩

end Run

/-! ## The heap -/

/-- What callers rely on. -/
structure Sound (heapStart heapEnd : BitVec w) (rs : List (Region Nat)) : Prop where
  inHeap : ∀ r ∈ rs, heapStart.toNat ≤ r.base ∧ r.base + r.size ≤ heapEnd.toNat
  aligned : ∀ r ∈ rs, pgsize ∣ r.base
  disjoint : rs.Pairwise Region.Disjoint

theorem le_roundUp (n : Nat) : n ≤ roundUp n := by
  unfold roundUp pgsize
  omega

/-- From `init_mm` on, the pages that `new_page` hands out are sound exactly as long as the pointer
does not wrap, and without a wrap the calls return exactly as long as the pointer stays below the end
of the heap. -/
theorem newPages_sound_iff (hw : 13 ≤ w) {heapStart heapEnd : BitVec w}
    (hstart : heapStart.toNat + (pgsize - 1) < 2 ^ w) (nrPages : List (BitVec w)) :
    (∀ rs pf, (initMm heapStart >>= fun _ => newPages heapEnd nrPages) 0 = .ok rs pf →
      (Sound heapStart heapEnd rs ↔ roundUp heapStart.toNat + asked nrPages < 2 ^ w)) ∧
    (roundUp heapStart.toNat + asked nrPages < 2 ^ w →
      ((∃ rs pf, (initMm heapStart >>= fun _ => newPages heapEnd nrPages) 0 = .ok rs pf) ↔
        nrPages = [] ∨ roundUp heapStart.toNat + asked nrPages < heapEnd.toNat)) := by
  have hrun : (initMm heapStart >>= fun _ => newPages heapEnd nrPages) 0 =
      newPages heapEnd nrPages (pgroundup heapStart) := bind_ok (set_run _ _)
  rw [hrun, ← toNat_pgroundup hw hstart]
  refine ⟨fun rs pf hpages => ⟨fun hsound => ?_, fun hwrap => ?_⟩, newPages_ok_iff⟩
  · exact lt_of_below hpages fun r hr => (hsound.inHeap r hr).2
  · have hall := newPages_handed hpages hwrap
    have hround := toNat_pgroundup hw hstart
    refine ⟨fun r hr => ⟨?_, Nat.le_of_lt (hall.below r hr)⟩, hall.aligned ?_, hall.bumps.disjoint⟩
    · have hlow := (hall.bumps.between r hr).1
      rw [hround] at hlow
      exact Nat.le_trans (le_roundUp _) hlow
    · rw [hround]
      exact Nat.dvd_mul_left _ _

/-- A heap that begins behind a page boundary, and three calls, one of them for nothing. -/
theorem newPages_sound_iff_three :
    ∃ rs pf, (initMm (0x100001 : Word) >>= fun _ => newPages 0x200000 [1, 0, 2]) 0 = .ok rs pf ∧
      Sound (0x100001 : Word) 0x200000 rs := by
  have hheap := @newPages_sound_iff 32 (by decide) 0x100001 0x200000 (by decide) [1, 0, 2]
  rcases (hheap.2 (by decide)).2 (.inr (by decide)) with ⟨rs, pf, hrun⟩
  exact ⟨rs, pf, hrun, (hheap.1 rs pf hrun).2 (by decide)⟩

end PageAllocator

end Nemu
