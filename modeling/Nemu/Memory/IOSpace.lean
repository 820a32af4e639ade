import Mathlib.Algebra.Order.Group.Int
import Mathlib.Algebra.Ring.Int.Defs
import Nemu.Lib.Regions
import Nemu.Memory.Registration

/-!
# Spaces for devices

`new_space` of `src/device/io/map.c` on the machine integers it works with: the size is an `int`,
rounded up to whole pages by a mask, and `p_space` is a pointer.  For sizes that the rounding does
not overflow it is the `newSpace` on natural numbers that registration uses, and the spaces of any
sequence of calls are regions behind a moving pointer.
-/

namespace Nemu

open Regions StateRules

/-! ## The function -/

namespace IOSpace

/-- `PAGE_MASK` -/
def pageMask : Word := BitVec.ofNat 32 pageSize - 1

/-- The size rounded up: `(size + (PAGE_SIZE - 1)) & ~PAGE_MASK`. -/
def roundUp (size : Word) : Word := (size + (BitVec.ofNat 32 pageSize - 1)) &&& ~~~pageMask

/-- The state is `p_space - io_space`, a difference of pointers. -/
abbrev OnSpace := EStateM Fault Int

def newSpace (size : Word) : OnSpace Int := do
  let p ← get
  modify fun pSpace => pSpace + (roundUp size).toInt
  cAssert (decide ((← get) < (ioSpaceMax : Int)))
  return p

/-- Calls of `new_space` one after the other, with the regions that they return. -/
def newSpaces : List Word → OnSpace (List (Region Int))
  | [] => return []
  | size :: sizes => do
      let p ← newSpace size
      let rest ← newSpaces sizes
      return { base := p, size := size.toInt } :: rest

/-! ## Rounding -/

/-- `INT_MAX` -/
def intMax : Int := 2147483647

/-- The size is not negative, and `size + (PAGE_SIZE - 1)` does not overflow. -/
structure Rounds (size : Word) : Prop where
  nonneg : 0 ≤ size.toInt
  fits : size.toInt + (pageSize - 1 : Nat) ≤ intMax

instance (size : Word) : Decidable (Rounds size) :=
  decidable_of_iff (0 ≤ size.toInt ∧ size.toInt + (pageSize - 1 : Nat) ≤ intMax)
    ⟨fun h => ⟨h.1, h.2⟩, fun h => ⟨h.nonneg, h.fits⟩⟩

/-- Masking off the low bits is rounding down. -/
theorem and_not_pageMask (x : Word) : x &&& ~~~pageMask = x >>> 12 <<< 12 := by
  apply BitVec.eq_of_getLsbD_eq
  intro i hi
  have hmask : pageMask.getLsbD i = decide (i < 12) := by
    have hnat : pageMask.toNat = 2 ^ 12 - 1 := by decide
    rw [BitVec.getLsbD, hnat, Nat.testBit_two_pow_sub_one]
  rw [BitVec.getLsbD_and, BitVec.getLsbD_not, hmask, BitVec.getLsbD_shiftLeft,
    BitVec.getLsbD_ushiftRight]
  by_cases hlow : i < 12
  · simp [hlow]
  · have hsum : 12 + (i - 12) = i := by omega
    simp [hlow, hi, hsum]

theorem toNat_and_not_pageMask (x : Word) :
    (x &&& ~~~pageMask).toNat = x.toNat / pageSize * pageSize := by
  have hlt := x.isLt
  rw [and_not_pageMask, BitVec.toNat_shiftLeft, BitVec.toNat_ushiftRight,
    Nat.shiftRight_eq_div_pow, Nat.shiftLeft_eq, pageSize]
  omega

section Rounds

variable {size : Word}

theorem Rounds.toInt (h : Rounds size) : size.toInt = size.toNat := by
  have hnonneg := h.nonneg
  rw [BitVec.toInt_eq_toNat_cond] at hnonneg ⊢
  split
  · rfl
  · rename_i hlarge
    rw [if_neg hlarge] at hnonneg
    have hlt := size.isLt
    omega

theorem Rounds.toNat_roundUp (h : Rounds size) : (roundUp size).toNat = pageRound size.toNat := by
  have hfits := h.fits
  have hsize : pageSize - 1 = 4095 := rfl
  rw [h.toInt, intMax, hsize] at hfits
  have hsum : (size + (BitVec.ofNat 32 pageSize - 1)).toNat = size.toNat + (pageSize - 1) := by
    rw [BitVec.toNat_add, hsize]
    have hmask : (BitVec.ofNat 32 pageSize - 1).toNat = 4095 := by decide
    rw [hmask]
    omega
  rw [roundUp, toNat_and_not_pageMask, hsum]
  rfl

theorem Rounds.toInt_roundUp (h : Rounds size) :
    (roundUp size).toInt = (pageRound size.toNat : Nat) := by
  have hfits := h.fits
  rw [h.toInt, intMax] at hfits
  have hle : pageRound size.toNat ≤ size.toNat + (pageSize - 1) := Nat.div_mul_le_self _ _
  have hlt : 2 * (roundUp size).toNat < 2 ^ 32 := by
    rw [h.toNat_roundUp]
    omega
  rw [BitVec.toInt_eq_toNat_of_lt hlt, h.toNat_roundUp]

end Rounds

/-! ## One call -/

/-- The part of the registration state that `new_space` works on. -/
def toOffset : EStateM.Result Fault IOInit Nat → EStateM.Result Fault Int Int
  | .ok p s => .ok p s.pSpace
  | .error e s => .error e s.pSpace

/-- On sizes that can be rounded, the machine arithmetic is that of `Nemu.newSpace`. -/
theorem newSpace_eq {size : Word} (h : Rounds size) (s : IOInit) :
    newSpace size s.pSpace = toOffset (Nemu.newSpace size.toNat s) := by
  have hsum : (s.pSpace : Int) + (roundUp size).toInt =
      (s.pSpace + pageRound size.toNat : Nat) := by
    rw [h.toInt_roundUp]
    norm_cast
  rw [newSpace, Nemu.newSpace, bind_ok (get_run _), bind_ok (get_run s), bind_ok (modify_run _ _),
    bind_ok (modify_run _ s), bind_ok (get_run _), bind_ok (get_run _), hsum]
  have htest : decide (((s.pSpace + pageRound size.toNat : Nat) : Int) < (ioSpaceMax : Int)) =
      decide (s.pSpace + pageRound size.toNat < ioSpaceMax) := decide_eq_decide.2 Int.ofNat_lt
  rw [htest]
  -- both stop at the same assertion, or return
  cases decide (s.pSpace + pageRound size.toNat < ioSpaceMax) with
  | true => rfl
  | false => rfl

/-- A call that passes its assertion returns the old pointer and moves it by whole pages, past the
size and not to the end of `io_space`. -/
theorem newSpace_ok {size : Word} {p p' q : Int} (h : Rounds size)
    (hrun : newSpace size p = .ok q p') :
    q = p ∧ p + size.toInt ≤ p' ∧ p ≤ p' ∧ p' ≤ (ioSpaceMax : Int) ∧
      (pageSize : Int) ∣ p' - p := by
  rw [newSpace, bind_ok (get_run p), bind_ok (modify_run _ p), bind_ok (get_run _)] at hrun
  rcases bind_eq_ok.1 hrun with ⟨_, p₁, hassert, hpure⟩
  rcases cAssert_eq_ok.1 hassert with ⟨hlt, rfl⟩
  cases hpure
  have hle : (size.toNat : Int) ≤ (pageRound size.toNat : Nat) := by
    exact_mod_cast le_pageRound size.toNat
  have hnonneg : (0 : Int) ≤ (pageRound size.toNat : Nat) := Int.natCast_nonneg _
  have hbound := of_decide_eq_true hlt
  rw [h.toInt_roundUp] at hbound ⊢
  refine ⟨rfl, ?_, by omega, by omega, ?_⟩
  · rw [h.toInt]
    omega
  · rw [add_sub_cancel_left]
    exact_mod_cast Nat.dvd_mul_left pageSize _

/-! ## All calls -/

/-- The pointer of a run of calls: it bumps, in whole pages, within `io_space`. -/
structure Allocates (p : Int) (rs : List (Region Int)) (p' : Int) : Prop where
  bumps : Bumps p rs p'
  bound : rs ≠ [] → p' ≤ (ioSpaceMax : Int)
  aligned : (pageSize : Int) ∣ p → ∀ r ∈ rs, (pageSize : Int) ∣ r.base

theorem newSpaces_ok {sizes : List Word} {rs : List (Region Int)} {p p' : Int}
    (hsizes : ∀ size ∈ sizes, Rounds size) (hrun : newSpaces sizes p = .ok rs p') :
    Allocates p rs p' ∧ rs.map Region.size = sizes.map BitVec.toInt := by
  induction sizes generalizing p rs with
  -- on the calls: what one of them leaves is where the next one starts
  | nil =>
      cases hrun
      exact ⟨⟨.nil _, by simp, by simp⟩, rfl⟩
  | cons size sizes ih =>
      rcases bind_eq_ok.1 hrun with ⟨q, p₁, hone, h₁⟩
      rcases bind_eq_ok.1 h₁ with ⟨rest, p₂, hrest, hpure⟩
      cases hpure
      rcases newSpace_ok (hsizes size List.mem_cons_self) hone with ⟨rfl, hsize, hle, hmax, hpages⟩
      rcases ih (fun s hs => hsizes s (List.mem_cons_of_mem size hs)) hrest with ⟨hall, hmap⟩
      refine ⟨⟨.cons rfl hle hsize hall.bumps, fun _ => ?_, fun hp r hr => ?_⟩, ?_⟩
      · by_cases hempty : rest = []
        · subst hempty
          cases hall.bumps
          exact hmax
        · exact hall.bound hempty
      · rcases List.mem_cons.1 hr with rfl | hmem
        · exact hp
        · exact hall.aligned ((Int.dvd_iff_dvd_of_dvd_sub hpages).2 hp) r hmem
      · rw [List.map_cons, List.map_cons, hmap]

/-- Whatever the sizes, the regions that `new_space` returns lie in `io_space`, start on page
boundaries and are disjoint from each other. -/
theorem newSpaces_disjoint {sizes : List Word} {rs : List (Region Int)} {p : Int}
    (hsizes : ∀ size ∈ sizes, Rounds size) (hrun : newSpaces sizes 0 = .ok rs p) :
    rs.map Region.size = sizes.map BitVec.toInt ∧
      (∀ r ∈ rs, 0 ≤ r.base ∧ r.base + r.size ≤ ioSpaceMax ∧ (pageSize : Int) ∣ r.base) ∧
      rs.Pairwise Region.Disjoint := by
  rcases newSpaces_ok hsizes hrun with ⟨hall, hmap⟩
  refine ⟨hmap, fun r hr => ?_, hall.bumps.disjoint⟩
  rcases hall.bumps.between r hr with ⟨hlow, hhigh⟩
  have hbound := hall.bound (List.ne_nil_of_mem hr)
  exact ⟨hlow, Int.le_trans hhigh hbound, hall.aligned (Int.dvd_zero _) r hr⟩

theorem newSpace_run {size : Word} {p p' : Int} (hp : p + (roundUp size).toInt = p')
    (hlt : decide (p' < (ioSpaceMax : Int)) = true) : newSpace size p = .ok p p' := by
  rw [newSpace, bind_ok (get_run p), bind_ok (modify_run _ p), bind_ok (get_run _), hp, hlt]
  rfl

theorem newSpaces_cons {size : Word} {sizes : List Word} {rs : List (Region Int)}
    {p p' p'' : Int} (h : newSpace size p = .ok p p') (hs : newSpaces sizes p' = .ok rs p'') :
    newSpaces (size :: sizes) p = .ok (⟨p, size.toInt⟩ :: rs) p'' := by
  rw [newSpaces, bind_ok h]
  exact bind_ok hs

/-- argsrom, the serial port and the timer. -/
theorem newSpaces_disjoint_devices :
    newSpaces [4096, 1, 4] 0 = .ok [⟨0, 4096⟩, ⟨4096, 1⟩, ⟨8192, 4⟩] 12288 ∧
      [(⟨0, 4096⟩ : Region Int), ⟨4096, 1⟩, ⟨8192, 4⟩].Pairwise Region.Disjoint := by
  have hargsrom : newSpace 4096 0 = .ok 0 4096 := newSpace_run (by decide) (by decide)
  have hserial : newSpace 1 4096 = .ok 4096 8192 := newSpace_run (by decide) (by decide)
  have htimer : newSpace 4 8192 = .ok 8192 12288 := newSpace_run (by decide) (by decide)
  have hrun : newSpaces [4096, 1, 4] 0 = .ok [⟨0, 4096⟩, ⟨4096, 1⟩, ⟨8192, 4⟩] 12288 :=
    newSpaces_cons hargsrom (newSpaces_cons hserial (newSpaces_cons htimer rfl))
  have hs : ∀ size ∈ [(4096 : Word), 1, 4], Rounds size := by
    simp only [List.forall_mem_cons]
    exact ⟨by decide, by decide, by decide, by simp⟩
  exact ⟨hrun, (newSpaces_disjoint hs hrun).2.2⟩

end IOSpace

end Nemu
